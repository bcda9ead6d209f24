import Courier.Proofs.Sim.Refused
import Courier.Proofs.Stream.LifeCycle

/-!
The task of a connection in a world. Main statement: whatever the world is like, all that the
task does to its connection are events of the connection's life, and it leaves all other
connections alone.
-/

namespace Courier.Stream.Life

/-- No attempt to connect is under way. -/
def Rests (s : Life) : Prop := ∀ k, s.connection.phase = .dialing k → s.stage = .idle

theorem rests_of_phase {s : Life} (h : ∀ k, s.connection.phase ≠ .dialing k) : s.Rests :=
  fun k hk => absurd hk (h k)

/-- What is not further with its stream does not begin an attempt either. -/
theorem Rests.steady {s t : Life} (h : s.Rests) (hstage : t.stage = s.stage)
    (hsteady : s.connection.Steady t.connection) : t.Rests :=
  fun k hk => hstage.trans (h k (hsteady.dialing k hk))

/-- The stage says how far the attempt is, whatever it was before. -/
theorem isDialing_withStage {s : Life} {stage : Stage} (h : s.isDialing stage = true)
    (next : Stage) (attempts : Nat) :
    isDialing { s with stage := next, attempts } next = true :=
  isDialing_iff.mpr ⟨(isDialing_iff.mp h).1, rfl⟩

theorem step_dial {s : Life} (h : s.isDialing .idle = true) :
    s.step .dial = { s with stage := .trying, attempts := s.attempts + 1 } :=
  if_pos h

/-- An attempt that failed. -/
theorem after_refused {s : Life} (h : s.isDialing .idle = true) :
    s.after [.dial, .refused] =
      { s with
        stage := .idle
        attempts := s.attempts + 1
        failures := s.failures + 1
        connection := s.connection.attemptFailed } := by
  have htrying := isDialing_withStage h .trying (s.attempts + 1)
  show (s.step .dial).step .refused = _
  rw [step_dial h]
  exact if_pos htrying

/-- An attempt that brought a stream. -/
theorem after_established {s : Life} (h : s.isDialing .idle = true) :
    s.after [.dial, .connected, .record] =
      { s with
        stage := .reached
        attempts := s.attempts + 1
        recorded := s.recorded || s.connection.isLive
        connection := s.connection.establish } := by
  have htrying := isDialing_withStage h .trying (s.attempts + 1)
  have hreached : (s.step .dial).step .connected =
      { s with stage := .reached, attempts := s.attempts + 1 } := by
    rw [step_dial h]
    exact if_pos htrying
  have hready : isReady { s with stage := .reached, attempts := s.attempts + 1 } = true :=
    Bool.or_eq_true_iff.mpr (.inl (isDialing_withStage h .reached (s.attempts + 1)))
  show ((s.step .dial).step .connected).step .record = _
  rw [hreached]
  exact if_pos hready

theorem establish_phase (c : Connection) (k : Nat) : c.establish.phase ≠ .dialing k := by
  rcases establish_cases c with ⟨_, heq⟩ | ⟨_, heq⟩ <;> rw [heq] <;> nofun

end Courier.Stream.Life

namespace Courier.Stream.Roster

variable {r r' r'' : Roster} {k n : Nat}

/-- What a connection of a roster becomes is what its life becomes by some events. -/
def Leads (k : Nat) (r r' : Roster) : Prop :=
  ∀ s : Life, r[k]? = some s.connection → s.Rests →
    ∃ events, r'[k]? = some (s.after events).connection ∧ (s.after events).Rests

theorem leads_of_getElem? (h : ∀ c, r[k]? = some c → r'[k]? = some c) : Leads k r r' :=
  fun _ hs hrests => ⟨[], h _ hs, hrests⟩

theorem Leads.refl (k : Nat) (r : Roster) : Leads k r r := leads_of_getElem? fun _ => id

theorem Leads.trans (h : Leads k r r') (h' : Leads k r' r'') : Leads k r r'' := by
  intro s hs hrests
  obtain ⟨events, hs', hrests'⟩ := h s hs hrests
  obtain ⟨events', hs'', hrests''⟩ := h' _ hs' hrests'
  rw [← s.after_append] at hs'' hrests''
  exact ⟨_, hs'', hrests''⟩

/-- A change of one connection that is an event of its life. -/
theorem leads_update {f : Connection → Connection}
    (h : ∀ s : Life, r[n]? = some s.connection → s.Rests →
      ∃ e, (s.step e).connection = f s.connection ∧ (s.step e).Rests) :
    Leads k r (r.update n f) := by
  by_cases hk : n = k
  · subst hk
    intro s hs hrests
    obtain ⟨e, hf, hrests'⟩ := h s hs hrests
    refine ⟨[e], ?_, hrests'⟩
    rw [update, Array.getElem?_modify, if_pos rfl, hs, Option.map_some, ← hf]
    rfl
  · refine leads_of_getElem? fun c hc => ?_
    rw [update, Array.getElem?_modify, if_neg hk, hc]

end Courier.Stream.Roster

namespace Courier.Sim.World

open Courier.Stream

section

variable {w w' w'' : World} {k n : Nat}

/-! ## Connections that stay -/

theorem roster_wake (w : World) (t : Task) : (w.wake t).roster = w.roster := (w.same_wake t).roster

theorem roster_wakeReader (w : World) (e : Nat) : (w.wakeReader e).roster = w.roster := by
  unfold wakeReader
  split
  · rfl
  · exact roster_wake _ _

theorem roster_write (w : World) (e : Nat) (data : Bytes) :
    (w.write e data).2.roster = w.roster := by
  unfold write
  dsimp only
  split
  · rfl
  · exact roster_wakeReader _ _

theorem roster_readAll (w : World) (e : Nat) : (w.readAll e).2.roster = w.roster := by
  unfold readAll
  split <;> rfl

theorem roster_settleConnection (w : World) (n : Nat) :
    (w.settleConnection n).roster = w.roster := by
  unfold settleConnection
  split
  · unfold dropStream
    dsimp only
    split
    · rfl
    · exact roster_wakeReader _ _
  · rfl

theorem roster_givePort (w : World) (a : SocketAddr) : (w.givePort a).2.roster = w.roster := by
  unfold givePort
  split <;> rfl

theorem roster_connectFrom (w : World) (listener : Nat) (source : SocketAddr) :
    (w.connectFrom listener source).2.roster = w.roster := by
  unfold connectFrom arriveAt
  dsimp only
  split
  · rfl
  · exact roster_wake _ _

theorem roster_connectPeer {peer : SocketAddr} {localPort : UInt16}
    (h : w.connectPeer n peer localPort = some w') : w'.roster = w.roster := by
  unfold connectPeer at h
  obtain ⟨listener, _, rfl⟩ := Option.map_eq_some_iff.mp h
  have hgive := w.roster_givePort ⟨.loopback peer.family, localPort, 0⟩
  generalize w.givePort ⟨.loopback peer.family, localPort, 0⟩ = given at hgive
  obtain ⟨source, w₁⟩ := given
  have hconnect := w₁.roster_connectFrom listener source
  dsimp only
  generalize w₁.connectFrom listener source = stream at hconnect
  exact hconnect.trans hgive

/-! ## Events of a life -/

/-- What a connection of a world becomes is what its life becomes by some events. -/
def Follows (k : Nat) (w w' : World) : Prop := w.roster.Leads k w'.roster

theorem Follows.trans (h : Follows k w w') (h' : Follows k w' w'') : Follows k w w'' :=
  Roster.Leads.trans h h'

theorem follows_of_roster (h : w'.roster = w.roster) : Follows k w w' := by
  rw [Follows, h]
  exact .refl k _

theorem follows_foldl {α : Type} {f : World → α → World} (h : ∀ w a, Follows k w (f w a))
    (w : World) (as : List α) : Follows k w (as.foldl f w) := by
  induction as generalizing w with
  | nil => exact follows_of_roster rfl
  | cons a as ih => exact (h w a).trans (ih (f w a))

/-- A change of a connection that is an event. -/
theorem follows_update {f : Connection → Connection} (hroster : w'.roster = w.roster.update n f)
    (h : ∀ s : Life, w.roster[n]? = some s.connection → s.Rests →
      ∃ e, (s.step e).connection = f s.connection ∧ (s.step e).Rests) : Follows k w w' := by
  rw [Follows, hroster]
  exact Roster.leads_update h

theorem follows_receive {c : Connection} {decoder : Frame.State} (hc : w.roster[n]? = some c)
    (hopened : c.phase = .opened decoder) (piece : Bytes)
    (hroster : w'.roster = w.roster.update n fun _ => c.receive piece) : Follows k w w' := by
  refine follows_update hroster fun s hs _ => ?_
  obtain rfl : c = s.connection := Option.some.inj (hc.symm.trans hs)
  have hstep : s.step (.read piece) =
      { s with read := s.read ++ [piece], connection := s.connection.receive piece } :=
    if_pos (Life.isOpen_iff.mpr ⟨decoder, hopened⟩)
  refine ⟨.read piece, congrArg Life.connection hstep, Life.rests_of_phase fun k hk => ?_⟩
  rw [hstep] at hk
  cases hopened.symm.trans ((s.connection.steady_receive piece).dialing k hk)

theorem follows_readPiece (w : World) (link : Link) (piece : Bytes) :
    Follows k w (w.readPiece n link piece) := by
  unfold readPiece
  split
  · exact follows_of_roster rfl
  · next c hc =>
    split
    · next decoder hopened =>
      dsimp only
      split <;> exact follows_receive hc hopened piece rfl
    · exact follows_of_roster rfl

theorem follows_hangUp (w : World) : Follows k w (w.updateConnection n (·.hangUp)) :=
  follows_update rfl fun _ _ _ => ⟨.broken, rfl, Life.rests_of_phase nofun⟩

theorem follows_readStream (w : World) (link : Link) (e : Nat) :
    Follows k w (w.readStream n link e) := by
  unfold readStream
  have hread := w.roster_readAll e
  generalize w.readAll e = result at hread
  obtain ⟨bytes, w₁⟩ := result
  dsimp only
  rw [← Array.foldl_toList]
  have hpieces : Follows k w (((Chunk.split? bytes readSize).getD #[]).toList.foldl
      (fun w piece => w.readPiece n link piece) w₁) :=
    (follows_of_roster hread).trans
      (follows_foldl (fun w piece => w.follows_readPiece link piece) w₁ _)
  generalize ((Chunk.split? bytes readSize).getD #[]).toList.foldl
    (fun w piece => w.readPiece n link piece) w₁ = w₂ at hpieces ⊢
  refine hpieces.trans ?_
  split
  · exact follows_hangUp _
  · exact follows_of_roster rfl

theorem follows_writeStream (w : World) (link : Link) (e : Nat) :
    Follows k w (w.writeStream n link e) := by
  unfold writeStream
  split
  · exact follows_of_roster rfl
  · next c hc =>
    dsimp only
    have hflush : Follows k w (w.updateConnection n fun _ => c.flush.2) := by
      refine follows_update (f := fun _ => c.flush.2) rfl fun s hs hrests => ?_
      obtain rfl : c = s.connection := Option.some.inj (hc.symm.trans hs)
      have hsteady := s.connection.steady_write s.connection.outbox.length
      refine ⟨.write s.connection.outbox.length, ?_, hrests.steady rfl hsteady⟩
      rw [Connection.flush_eq_write]
      rfl
    refine hflush.trans (follows_foldl (fun w frame => follows_of_roster ?_) _ _)
    have hwrite := w.roster_write e frame
    generalize w.write e frame = result at hwrite
    obtain ⟨written, w'⟩ := result
    cases written <;> exact hwrite

theorem follows_noticeCancel (w : World) :
    Follows k w ((w.updateConnection n (·.noticeCancel)).settleConnection n) :=
  follows_update (roster_settleConnection _ n) fun s _ hrests =>
    ⟨.noticeCancel, rfl, hrests.steady rfl s.connection.steady_noticeCancel⟩

theorem follows_pumpStream (w : World) (k n : Nat) : Follows k w (w.pumpStream n) := by
  unfold pumpStream
  split
  · exact follows_of_roster rfl
  · split
    · exact follows_of_roster rfl
    · exact ((w.follows_readStream _ _).trans (follows_writeStream _ _ _)).trans
        (follows_noticeCancel _)

/-! ## Attempts to connect -/

/-- Each attempt begins and then fails, or gets a stream that is recorded. -/
theorem exists_events_dial (attempts : Nat) (w : World) {s : Life}
    (hs : w.roster[n]? = some s.connection) (hidle : s.isDialing .idle = true) :
    ∃ events, (dial attempts w n).roster[n]? = some (s.after events).connection ∧
      (s.after events).Rests := by
  induction attempts generalizing w s with
  | zero => exact ⟨[], hs, fun _ _ => (Life.isDialing_iff.mp hidle).2⟩
  | succ attempts ih =>
    have hchanged (f : Connection → Connection) :
        (w.roster.update n f)[n]? = some (f s.connection) := by
      rw [Roster.update, Array.getElem?_modify, if_pos rfl, hs]
      rfl
    unfold dial
    rw [hs]
    dsimp only
    split
    · next c link hc _ =>
      obtain rfl : s.connection = c := Option.some.inj hc
      split
      · next w₁ hconnect =>
        refine ⟨[.dial, .connected, .record], ?_, ?_⟩
        · rw [roster_settleConnection, Life.after_established hidle, updateConnection,
            roster_connectPeer hconnect]
          exact hchanged _
        · rw [Life.after_established hidle]
          exact Life.rests_of_phase (Life.establish_phase s.connection)
      · next hrefused =>
        have hfailed := Life.after_refused hidle
        have hnow (w' : World)
            (hw' : w'.roster = w.roster.update n fun _ => s.connection.attemptFailed) :
            w'.roster[n]? = some (s.after [.dial, .refused]).connection := by
          rw [hw', hfailed]
          exact hchanged _
        have hrests : (s.after [.dial, .refused]).Rests := fun _ _ => by rw [hfailed]
        split
        · exact ⟨_, hnow _ rfl, hrests⟩
        · next hopen =>
          split
          · have hagain : (s.after [.dial, .refused]).isDialing .idle = true := by
              obtain ⟨⟨k, hk⟩, _⟩ := Life.isDialing_iff.mp hidle
              rw [hfailed, Life.isDialing_iff]
              rcases Life.attemptFailed_cases hk with ⟨_, heq⟩ | ⟨_, heq⟩
              · exact ⟨⟨k + 1, congrArg Connection.phase heq⟩, rfl⟩
              · exact absurd (congrArg Connection.phase heq) hopen
            obtain ⟨events, hroster, hrests'⟩ :=
              ih (w.updateConnection n fun _ => s.connection.attemptFailed) (hnow _ rfl) hagain
            rw [← Life.after_append] at hroster hrests'
            exact ⟨_, hroster, hrests'⟩
          · exact ⟨_, hnow _ rfl, hrests⟩
    · exact ⟨[], hs, fun _ _ => (Life.isDialing_iff.mp hidle).2⟩

/-- An attempt of one connection is none of another. -/
theorem roster_dial_of_ne (hk : n ≠ k) (attempts : Nat) (w : World) :
    (dial attempts w n).roster[k]? = w.roster[k]? := by
  have hother (w' : World) (f : Connection → Connection) :
      (w'.updateConnection n f).roster[k]? = w'.roster[k]? := by
    rw [updateConnection, Roster.update, Array.getElem?_modify, if_neg hk]
  induction attempts generalizing w with
  | zero => rfl
  | succ attempts ih =>
    unfold dial
    split
    · next c _ _ _ =>
      split
      · next hconnect => rw [roster_settleConnection, hother, roster_connectPeer hconnect]
      · dsimp only
        split
        · exact hother w _
        · split
          · exact (ih _).trans (hother w _)
          · exact hother w _
    · rfl

theorem follows_establish (w : World)
    (h : ∀ c, w.roster[n]? = some c → c.phase = .established) :
    Follows k w ((w.updateConnection n Connection.establish).settleConnection n) :=
  follows_update (roster_settleConnection _ n) fun s hs _ => by
    have hready : s.isReady = true := by
      rw [Life.isReady, h _ hs]
      simp
    have hstep : s.step .record =
        { s with
          recorded := s.recorded || s.connection.isLive
          connection := s.connection.establish } := if_pos hready
    refine ⟨.record, congrArg Life.connection hstep, ?_⟩
    rw [hstep]
    exact Life.rests_of_phase (Life.establish_phase s.connection)

/-- The task of a connection leads its life on, and no other. -/
theorem follows_driveConnection (w : World) (k n : Nat) : Follows k w (w.driveConnection n) := by
  unfold driveConnection
  split
  · next c link hc _ =>
    split
    · next failed hphase =>
      split
      · refine .trans ?_ (follows_pumpStream _ k n)
        by_cases hk : n = k
        · subst hk
          intro s hs hrests
          obtain rfl : c = s.connection := Option.some.inj (hc.symm.trans hs)
          exact exists_events_dial _ w hs
            (Life.isDialing_iff.mpr ⟨⟨failed, hphase⟩, hrests failed hphase⟩)
        · exact Roster.leads_of_getElem? fun c hc => (roster_dial_of_ne hk _ w).trans hc
      · exact follows_noticeCancel w
    · next hphase =>
      refine (follows_establish w fun c' hc' => ?_).trans (follows_pumpStream _ k n)
      obtain rfl := Option.some.inj (hc.symm.trans hc')
      exact hphase
    · exact w.follows_pumpStream k n
    · exact follows_of_roster rfl
  · exact follows_of_roster rfl

end

end Courier.Sim.World
