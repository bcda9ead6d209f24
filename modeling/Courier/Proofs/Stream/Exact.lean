import Courier.Proofs.Frame.Decode
import Courier.Stream.Connection

/-!
The two ends of a stream. Main statement: whatever one end sends, and however the stream is
cut on its way, the other end gets the messages that were taken for sending, each once and in
order, and answers every ping. The decoder never fails, whatever the messages look like.
-/

namespace Courier.Stream

open Courier.Frame

/-- The payloads that the owner of a connection gets to see. -/
def messages (payloads : List Bytes) : List Bytes := payloads.filter fun p => !isKeepalive p

/-! ## The end that sends -/

/-- What happens at the end that sends. -/
inductive Act where
  | send (data : Bytes) (room : data.length ≤ sizeMax)
  | ping
  | pong
  /-- what is queued is written to the stream, if there is one -/
  | write
  /-- anything that leaves the queue alone: the stream is there, or gone, or was closed -/
  | become (state : State) (phase : Phase)

/-- A connection with an account of what it was given and what it wrote. -/
structure Sender where
  connection : Connection
  /-- the payloads of the frames that were queued -/
  queued : List Bytes := []
  /-- the messages that `send` took -/
  accepted : List Bytes := []
  written : Bytes := []

namespace Sender

/-- Queues a frame that is not a message. -/
def keepalive (s : Sender) (payload : Bytes) : Sender :=
  match s.connection.enqueue payload with
  | (true, c) => { s with connection := c, queued := s.queued ++ [payload] }
  | (false, c) => { s with connection := c }

def step (s : Sender) : Act → Sender
  | .send data _ =>
    match s.connection.send data with
    | (true, c) =>
      { s with connection := c, queued := s.queued ++ [data], accepted := s.accepted ++ [data] }
    | (false, c) => { s with connection := c }
  | .ping => s.keepalive Frame.ping
  | .pong => s.keepalive Frame.pong
  | .write =>
    let (frames, c) := s.connection.flush
    { s with connection := c, written := s.written ++ frames.flatten }
  | .become state phase => { s with connection := { s.connection with state, phase } }

def run (c : Connection) (acts : List Act) : Sender := acts.foldl step { connection := c }

/-- What was written, and what waits to be, is the frames that were queued, one after the
other, and the other end takes each of them. -/
structure Sound (limit : Nat) (s : Sender) : Prop where
  size : s.connection.maxFrameSize = limit
  stream : s.written ++ s.connection.outbox.reverse.flatten = s.queued.flatMap encode
  fits : ∀ p ∈ s.queued, Fits limit p
  accepted : messages s.queued = s.accepted

end Sender

section

variable {limit : Nat} {s : Sender} {payload data : Bytes} {c d : Connection}

theorem Connection.enqueue_true (h : c.enqueue payload = (true, d)) :
    d = { c with outbox := encode payload :: c.outbox } := by
  rw [Connection.enqueue] at h
  split at h <;> cases h
  rfl

theorem Connection.enqueue_false (h : c.enqueue payload = (false, d)) : d = c := by
  rw [Connection.enqueue] at h
  split at h <;> cases h
  rfl

theorem Connection.send_true (h : c.send data = (true, d)) :
    c.accepts data = true ∧ d = { c with outbox := encode data :: c.outbox } := by
  rw [Connection.send] at h
  split at h
  next => cases h
  next hopen =>
    have hboth : c.isDisconnected = false ∧ c.accepts data = true := by simpa using hopen
    exact ⟨hboth.2, enqueue_true h⟩

theorem Connection.send_false (h : c.send data = (false, d)) : d = c := by
  rw [Connection.send] at h
  split at h
  next => exact (congrArg Prod.snd h).symm
  next => exact enqueue_false h

theorem Connection.flush_cases {frames : List Bytes} (h : c.flush = (frames, d)) :
    frames = [] ∧ d = c ∨ frames = c.outbox.reverse ∧ d = { c with outbox := [] } := by
  rw [Connection.flush] at h
  split at h <;> cases h
  · exact .inr ⟨rfl, rfl⟩
  · exact .inl ⟨rfl, rfl⟩

theorem Connection.accepts_iff :
    c.accepts data = true ↔
      data ≠ [] ∧ isKeepalive data = false ∧ data.length ≤ c.maxFrameSize := by
  simp [Connection.accepts, and_assoc]

namespace Sender.Sound

/-- A frame more in the queue. -/
theorem queue (h : s.Sound limit) (hfits : Fits limit payload) :
    Sound limit { s with
      connection := { s.connection with outbox := encode payload :: s.connection.outbox }
      queued := s.queued ++ [payload]
      accepted := s.accepted ++ messages [payload] } where
  size := h.size
  stream := by
    rw [List.flatMap_append, ← h.stream]
    simp
  fits := List.forall_mem_append.mpr ⟨h.fits, List.forall_mem_singleton.mpr hfits⟩
  accepted := by
    rw [← h.accepted]
    exact List.filter_append _ _

theorem send (h : s.Sound limit) (data : Bytes) (room : data.length ≤ sizeMax) :
    (s.step (.send data room)).Sound limit := by
  rw [step]
  split
  next c hsend =>
    obtain ⟨haccepts, rfl⟩ := Connection.send_true hsend
    obtain ⟨hnonempty, hkeepalive, hsize⟩ := Connection.accepts_iff.mp haccepts
    have hmessage : messages [data] = [data] := by simp [messages, hkeepalive]
    have := h.queue ⟨hnonempty, h.size ▸ hsize, room⟩
    rwa [hmessage] at this
  next c hsend =>
    obtain rfl := Connection.send_false hsend
    exact h

theorem keepalive (h : s.Sound limit) (hfits : Fits limit payload)
    (hpayload : isKeepalive payload = true) : (s.keepalive payload).Sound limit := by
  rw [Sender.keepalive]
  split
  next c henqueue =>
    obtain rfl := Connection.enqueue_true henqueue
    have hmessage : messages [payload] = [] := by simp [messages, hpayload]
    have := h.queue hfits
    rwa [hmessage, List.append_nil] at this
  next c henqueue =>
    obtain rfl := Connection.enqueue_false henqueue
    exact h

theorem write (h : s.Sound limit) : (s.step .write).Sound limit := by
  rw [step]
  split
  next frames c hflush =>
    obtain ⟨rfl, rfl⟩ | ⟨rfl, rfl⟩ := Connection.flush_cases hflush
    · simpa using h
    · refine ⟨h.size, ?_, h.fits, h.accepted⟩
      rw [← h.stream]
      simp

theorem step (h : s.Sound limit) (hlimit : 2 ≤ limit) (a : Act) : (s.step a).Sound limit := by
  cases a with
  | send data room => exact h.send data room
  | ping => exact h.keepalive ⟨by decide, hlimit, by decide⟩ rfl
  | pong => exact h.keepalive ⟨by decide, hlimit, by decide⟩ rfl
  | write => exact h.write
  | become state phase => exact ⟨h.size, h.stream, h.fits, h.accepted⟩

theorem run (hlimit : 2 ≤ c.maxFrameSize) (hempty : c.outbox = []) (acts : List Act) :
    (run c acts).Sound c.maxFrameSize := by
  have hfold : ∀ {s : Sender}, s.Sound c.maxFrameSize →
      (acts.foldl Sender.step s).Sound c.maxFrameSize := by
    induction acts with
    | nil => exact id
    | cons a acts ih => exact fun h => ih (h.step hlimit a)
  exact hfold ⟨rfl, by simp [hempty], by simp, rfl⟩

end Sender.Sound

/-! ## The end that receives -/

/-- What the frames of a part of the stream make of a connection. -/
structure Took (frames : List Bytes) (decoder : Frame.State) (c d : Connection) : Prop where
  size : d.maxFrameSize = c.maxFrameSize
  state : d.state = c.state
  phase : d.phase = .opened decoder
  inbox : d.inbox = c.inbox ++ messages frames
  outbox : d.outbox = List.replicate (frames.count Frame.ping) (encode Frame.pong) ++ c.outbox

namespace Took

variable {frames frames' : List Bytes} {decoder decoder' : Frame.State} {e : Connection}

theorem refl (h : c.phase = .opened decoder) : Took [] decoder c c :=
  ⟨rfl, rfl, h, (List.append_nil _).symm, rfl⟩

theorem trans (h : Took frames decoder c d) (h' : Took frames' decoder' d e) :
    Took (frames ++ frames') decoder' c e where
  size := h'.size.trans h.size
  state := h'.state.trans h.state
  phase := h'.phase
  inbox := by rw [h'.inbox, h.inbox, List.append_assoc, messages, messages, messages,
    List.filter_append]
  outbox := by rw [h'.outbox, h.outbox, ← List.append_assoc, List.replicate_append_replicate,
    List.count_append, Nat.add_comm]

theorem frame (h : c.phase = .opened decoder) (payload : Bytes) :
    Took [payload] decoder c (c.takeFrame payload) := by
  rw [Connection.takeFrame]
  split
  next hping =>
    rw [Connection.enqueue, if_neg (by rw [h]; nofun), hping]
    exact ⟨rfl, rfl, h, (List.append_nil _).symm, rfl⟩
  next hping =>
    have hcount : [payload].count Frame.ping = 0 := by simp [hping]
    split
    next hpong =>
      rw [hpong]
      exact ⟨rfl, rfl, h, (List.append_nil _).symm, rfl⟩
    next hpong =>
      have hmessage : messages [payload] = [payload] := by
        simp [messages, isKeepalive, hping, hpong]
      exact ⟨rfl, rfl, h, by rw [hmessage], by rw [hcount]; rfl⟩

theorem foldl (h : c.phase = .opened decoder) (frames : List Bytes) :
    Took frames decoder c (frames.foldl Connection.takeFrame c) := by
  induction frames generalizing c with
  | nil => exact refl h
  | cons payload frames ih => exact (frame h payload).trans (ih (frame h payload).phase)

theorem receive {s : Frame.State} (h : c.phase = .opened s) {piece : Bytes}
    (hdecode : (decode c.maxFrameSize s piece).error = none) :
    Took (decode c.maxFrameSize s piece).frames (decode c.maxFrameSize s piece).state c
      (c.receive piece) := by
  have htook := foldl (c := { c with phase := .opened (decode c.maxFrameSize s piece).state }) rfl
    (decode c.maxFrameSize s piece).frames
  rw [Connection.receive, h]
  simp only [hdecode]
  exact ⟨htook.size, htook.state, htook.phase, htook.inbox, htook.outbox⟩

/-- The cuts make no difference. -/
theorem pieces {s : Frame.State} (h : c.phase = .opened s) {pieces : List Bytes}
    (hdecode : (decode c.maxFrameSize s pieces.flatten).error = none) :
    Took (decode c.maxFrameSize s pieces.flatten).frames
      (decode c.maxFrameSize s pieces.flatten).state c (pieces.foldl Connection.receive c) := by
  induction pieces generalizing c s with
  | nil => exact refl h
  | cons piece rest ih =>
    rw [List.flatten_cons] at hdecode ⊢
    have hpiece := error_of_append hdecode
    have hfirst := receive h hpiece
    rw [decode_append hpiece] at hdecode ⊢
    have hrest := ih hfirst.phase (by rw [hfirst.size]; exact hdecode)
    rw [hfirst.size] at hrest
    exact hfirst.trans hrest

end Took

/-! ## Both ends -/

/-- What an end that received part of a stream is like. -/
structure Delivers (s : Sender) (stream : Bytes) (c d : Connection) : Prop where
  /-- the frames that are complete, and nothing else, were taken -/
  took : ∃ decoder, Took (arrived stream.length s.queued) decoder c d
  /-- the messages among them are the first ones that `send` took -/
  inOrder : messages (arrived stream.length s.queued) <+: s.accepted
  /-- after a frame the decoder is as it was before -/
  between : stream.length = ((arrived stream.length s.queued).flatMap encode).length →
    d.phase = .opened .seek
  /-- once all is written and received, no message is missing -/
  all : s.connection.outbox = [] → stream = s.written →
    d.inbox = c.inbox ++ s.accepted ∧ d.phase = .opened .seek

end

/-- For every history of the end that sends, and every cutting of what it wrote, or of a
first part of that. -/
theorem delivers_run {c d : Connection} (hempty : c.outbox = []) (hlimit : 2 ≤ c.maxFrameSize)
    (hsame : d.maxFrameSize = c.maxFrameSize) (hopen : d.phase = .opened .seek) (acts : List Act)
    {pieces : List Bytes} (hpieces : pieces.flatten <+: (Sender.run c acts).written) :
    Delivers (Sender.run c acts) pieces.flatten d (pieces.foldl Connection.receive d) := by
  have hsound := Sender.Sound.run hlimit hempty acts
  generalize Sender.run c acts = s at *
  have hstream : pieces.flatten <+: s.queued.flatMap encode :=
    hpieces.trans (hsound.stream ▸ List.prefix_append _ _)
  obtain ⟨herror, hframes, hstate⟩ := decode_stream hsound.fits hstream
  rw [← hsame] at herror hframes hstate
  have htook := Took.pieces hopen herror
  rw [hframes] at htook
  refine ⟨⟨_, htook⟩, ?_, fun hend => ?_, fun hwritten hall => ?_⟩
  · rw [← hsound.accepted]
    exact (prefix_arrived _ _).filter _
  · rw [htook.phase, hstate hend]
  · have hqueued : pieces.flatten = s.queued.flatMap encode := by
      rw [hall, ← hsound.stream, hwritten]
      exact (List.append_nil _).symm
    have harrived : arrived pieces.flatten.length s.queued = s.queued := by
      rw [hqueued, arrived_all]
    refine ⟨?_, ?_⟩
    · rw [htook.inbox, harrived, hsound.accepted]
    · rw [htook.phase, hstate (by rw [harrived, hqueued])]

def somePeer : SocketAddr := { ip := .v4 127 0 0 1, port := 8000 }

/-- A stream that the peer opened, and that is ready. -/
def ready : Connection := (Connection.accept {} somePeer).establish

/-- The message `!1:a` looks like a frame. Here it is cut where it does, with a ping behind it. -/
theorem delivers_lookalike :
    let message : Bytes := [0x21, 0x31, 0x3a, 0x61]
    let acts : List Act := [.send message (by decide), .ping, .write]
    let pieces : List Bytes := [[0x21, 0x34, 0x3a], message ++ [0x21, 0x32], [0x3a, 0x25, 0x6b]]
    (Sender.run ready acts).written = pieces.flatten ∧
      Delivers (Sender.run ready acts) pieces.flatten ready
        (pieces.foldl Connection.receive ready) ∧
      (pieces.foldl Connection.receive ready).inbox = [message] := by
  intro message acts pieces
  have hwritten : (Sender.run ready acts).written = pieces.flatten := by decide
  have hreceived : pieces.flatten <+: (Sender.run ready acts).written :=
    hwritten ▸ List.prefix_rfl
  have h := delivers_run (c := ready) (d := ready) rfl (by decide) rfl rfl acts hreceived
  exact ⟨hwritten, h, (h.all rfl hwritten.symm).1⟩

end Courier.Stream
