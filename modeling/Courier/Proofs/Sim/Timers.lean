import Courier.Proofs.Sim.Delivered

/-!
The timers of a world. A timer that goes off does the ticks that are due one after the other, and
then waits for the next one. Main statements: what every tick keeps is kept when a timer goes off,
and a timer that runs goes on just if its period is usable.
-/

namespace Courier.Sim.World

/-! ## Any number of ticks -/

section

variable {P : World → Prop} {w : World} {n : Nat}

theorem holds_ticks {tick : World → World} (htick : ∀ w, P w → P (tick w)) (h : P w)
    (ticks : Nat) : P (ticks.fold (fun _ _ w => tick w) w) := by
  induction ticks with
  | zero => exact h
  | succ ticks ih =>
    rw [Nat.fold_succ]
    exact htick _ ih

/-- Besides the ticks there are only changes of the timers and of the socket. -/
theorem holds_runResendTimer (h : P w) (htick : ∀ c w, P w → P (w.resendTick n c))
    (hset : ∀ w f timers, P w → P { w.updateSocket n f with timers }) :
    P (w.runResendTimer n) := by
  unfold runResendTimer
  split
  · exact h
  · next s _ =>
    split
    · exact h
    · next c _ =>
      split
      · exact h
      · split
        · exact hset w (fun s => { s with tasks := s.tasks.filter (· ≠ .resendTimer n) }) w.timers h
        · generalize ticksDue w.now s.nextTick c.resendInterval = due
          obtain ⟨ticks, next⟩ := due
          exact hset _ _ _ (holds_ticks (htick c) h ticks)

/-- Besides the ticks there are only changes of the timers, and changes of the hub that leave its
channel alone. -/
theorem holds_runKeepaliveTimer (h : P w) (htick : ∀ w, P w → P (w.tickHub n))
    (hset : ∀ w f timers, (∀ h, (f h).context = h.context ∧ (f h).channel = h.channel) → P w →
      P { w.updateHub n f with timers }) : P (w.runKeepaliveTimer n) := by
  unfold runKeepaliveTimer
  split
  · exact h
  · next hub _ =>
    split
    · exact h
    · next c _ =>
      split
      · exact h
      · split
        · exact hset w _ _ (fun _ => ⟨rfl, rfl⟩) h
        · generalize ticksDue w.now hub.nextTick c.keepaliveInterval = due
          obtain ⟨ticks, next⟩ := due
          exact hset _ _ _ (fun _ => ⟨rfl, rfl⟩) (holds_ticks htick h ticks)

end

/-! ## Timers that go on -/

section

variable {w w' w'' : World} {n : Nat}

/-- The tasks of a socket's channel that have not ended. -/
def tasksOf? (w : World) (n : Nat) : Option (List Task) := (w.sockets[n]?).map (·.tasks)

/-- Whether the keepalive timer of a hub runs. -/
def ticking? (w : World) (n : Nat) : Option Bool := (w.hubs[n]?).map (·.ticking)

/-- Time stands still, and no timer starts or ends. -/
structure Keeps (w w' : World) : Prop where
  now : w'.now = w.now
  tasks : w'.tasksOf? = w.tasksOf?
  ticking : w'.ticking? = w.ticking?

theorem Keeps.trans (h : Keeps w w') (g : Keeps w' w'') : Keeps w w'' :=
  ⟨g.now.trans h.now, g.tasks.trans h.tasks, g.ticking.trans h.ticking⟩

theorem tasksOf?_updateSocket (w : World) (n : Nat) (f : Socket → Socket) (m : Nat) :
    (w.updateSocket n f).tasksOf? m =
      if m = n then (w.sockets[m]?).map fun s => (f s).tasks else w.tasksOf? m :=
  map_getElem?_modify w.sockets n f (·.tasks) m

theorem ticking?_updateHub (w : World) (n : Nat) (f : Hub → Hub) (m : Nat) :
    (w.updateHub n f).ticking? m =
      if m = n then (w.hubs[m]?).map fun h => (f h).ticking else w.ticking? m :=
  map_getElem?_modify w.hubs n f (·.ticking) m

theorem keeps_updateSocket (w : World) (n : Nat) {f : Socket → Socket}
    (hf : ∀ s, (f s).tasks = s.tasks) : Keeps w (w.updateSocket n f) where
  now := rfl
  tasks := funext (map_getElem?_modify_of_eq w.sockets n hf)
  ticking := rfl

theorem keeps_updateHub (w : World) (n : Nat) {f : Hub → Hub}
    (hf : ∀ h, (f h).ticking = h.ticking) : Keeps w (w.updateHub n f) where
  now := rfl
  tasks := rfl
  ticking := funext (map_getElem?_modify_of_eq w.hubs n hf)

theorem keeps_setTimer (w : World) (t : Task) (due : Instant) : Keeps w (w.setTimer t due) :=
  ⟨rfl, rfl, rfl⟩

theorem keeps_clearTimer (w : World) (t : Task) : Keeps w (w.clearTimer t) := ⟨rfl, rfl, rfl⟩

theorem keeps_resendTick (w : World) (n : Nat) (c : Config) : Keeps w (w.resendTick n c) := by
  unfold resendTick
  split
  · exact ⟨rfl, rfl, rfl⟩
  · next s _ =>
    dsimp only
    generalize s.channel.tick c w.now = result
    obtain ⟨report, channel⟩ := result
    refine (w.keeps_updateSocket n (f := fun s => { s with channel }) fun _ => rfl).trans ?_
    split
    · next hresent =>
      obtain ⟨ready, hready⟩ := wake_eq (((w.updateSocket n fun s => { s with channel })).count
        s.context fun t => (t.messagesDropped report.dropped).resent report.resent)
        (.datagramSender n)
      dsimp only
      rw [hready]
      exact ⟨rfl, rfl, rfl⟩
    · exact ⟨rfl, rfl, rfl⟩

theorem keeps_tickHub (w : World) (n : Nat) : Keeps w (w.tickHub n) := by
  unfold tickHub
  split
  · exact ⟨rfl, rfl, rfl⟩
  · next h _ =>
    split
    · exact ⟨rfl, rfl, rfl⟩
    · next c _ =>
      dsimp only
      generalize h.channel.tick w.roster c.keepaliveIdleTicks = result
      obtain ⟨roster, channel⟩ := result
      have hchannel := keeps_updateHub { w with roster } n (f := fun h => { h with channel })
        fun _ => rfl
      obtain ⟨ready, hready⟩ := wakeDue_eq
        ({ w with roster }.updateHub n fun h => { h with channel }) h.channel.connections
      dsimp only
      rw [hready]
      exact ⟨rfl, rfl, hchannel.ticking⟩

theorem le_ceilMilli (t : Nat) : t ≤ Duration.ceilMilli t := by
  show t ≤ (t + 999999) / 1000000 * 1000000
  omega

/-- After the ticks that are due, the next one is ahead. -/
theorem lt_ticksDue (now due : Nat) {period : Duration} (hperiod : isUnusable period = false) :
    now < Duration.ceilMilli (ticksDue now due period).2 := by
  obtain ⟨hpos, -⟩ := Bool.or_eq_false_iff.mp hperiod
  have hpos : 0 < period.nanos := Nat.pos_of_ne_zero (by simpa using hpos)
  unfold ticksDue
  split
  · next h => exact h.resolve_right (Nat.ne_of_gt hpos)
  · have hlt : now - due < ((now - due) / period.nanos + 1) * period.nanos :=
      Nat.lt_mul_of_div_lt (Nat.lt_succ_self _) hpos
    have hle := le_ceilMilli (due + ((now - due) / period.nanos + 1) * period.nanos)
    exact Nat.lt_of_lt_of_le (by omega) hle

/-- A task waits for an instant to come. -/
def Awaits (w : World) (t : Task) : Prop := ∃ due, w.now < due ∧ ⟨due, t⟩ ∈ w.timers

theorem awaits_setTimer {t : Task} {due : Instant} (h : w.now < due) :
    (w.setTimer t due).Awaits t :=
  ⟨due, h, List.mem_append_right _ (List.mem_singleton_self _)⟩

section

variable {s : Socket} {h : Hub} {c : Config}

-- The ticks that are due are variables in these equations: a step that made Lean evaluate them
-- would count a millisecond in nanoseconds.

theorem runResendTimer_eq (hs : w.sockets[n]? = some s) (hc : w.config? s.context = some c)
    (htask : .resendTimer n ∈ s.tasks) {ticks : Nat} {next : Instant}
    (hdue : ticksDue w.now s.nextTick c.resendInterval = (ticks, next)) :
    w.runResendTimer n =
      if isUnusable c.resendInterval then w.endSocketTask n (.resendTimer n)
      else
        ((ticks.fold (fun _ _ w => w.resendTick n c) w).updateSocket n fun s =>
          { s with nextTick := next }).setTimer (.resendTimer n) (Duration.ceilMilli next) := by
  unfold runResendTimer
  split
  · next hnone => cases hs.symm.trans hnone
  · next s' hs' =>
    obtain rfl : s = s' := Option.some.inj (hs.symm.trans hs')
    split
    · next hnone => cases hc.symm.trans hnone
    · next c' hc' =>
      obtain rfl : c = c' := Option.some.inj (hc.symm.trans hc')
      rw [hdue]
      exact if_neg (not_not_intro htask)

theorem runKeepaliveTimer_eq (hh : w.hubs[n]? = some h) (hc : w.config? h.context = some c)
    (hticking : h.ticking = true) {ticks : Nat} {next : Instant}
    (hdue : ticksDue w.now h.nextTick c.keepaliveInterval = (ticks, next)) :
    w.runKeepaliveTimer n =
      if isUnusable c.keepaliveInterval then w.endKeepalive n
      else
        ((ticks.fold (fun _ _ w => w.tickHub n) w).updateHub n fun h =>
          { h with nextTick := next }).setTimer (.keepaliveTimer n)
            (Duration.ceilMilli next) := by
  unfold runKeepaliveTimer
  split
  · next hnone => cases hh.symm.trans hnone
  · next h' hh' =>
    obtain rfl : h = h' := Option.some.inj (hh.symm.trans hh')
    split
    · next hnone => cases hc.symm.trans hnone
    · next c' hc' =>
      obtain rfl : c = c' := Option.some.inj (hc.symm.trans hc')
      rw [hdue]
      exact if_neg (by simp [hticking])

/-- A resend timer that runs goes on just if its period is usable. -/
theorem tasksOf?_runResendTimer (hs : w.sockets[n]? = some s)
    (hc : w.config? s.context = some c) (htask : .resendTimer n ∈ s.tasks) :
    (w.runResendTimer n).tasksOf? n =
        some (if isUnusable c.resendInterval then s.tasks.filter (· ≠ .resendTimer n)
          else s.tasks) ∧
      (isUnusable c.resendInterval = false → (w.runResendTimer n).Awaits (.resendTimer n)) := by
  cases hdue : ticksDue w.now s.nextTick c.resendInterval with
  | mk ticks next =>
    rw [runResendTimer_eq hs hc htask hdue]
    cases hperiod : isUnusable c.resendInterval with
    | true =>
      rw [if_pos rfl, if_pos rfl, endSocketTask, tasksOf?_updateSocket, if_pos rfl, hs]
      exact ⟨rfl, nofun⟩
    | false =>
      rw [if_neg Bool.false_ne_true, if_neg Bool.false_ne_true]
      have hticks : Keeps w (ticks.fold (fun _ _ w => w.resendTick n c) w) :=
        holds_ticks (fun w' h => h.trans (w'.keeps_resendTick n c)) ⟨rfl, rfl, rfl⟩ ticks
      have hkeeps := hticks.trans
        (keeps_updateSocket _ n (f := fun s => { s with nextTick := next }) fun _ => rfl)
      have hahead := lt_ticksDue w.now s.nextTick hperiod
      rw [hdue] at hahead
      refine ⟨?_, fun _ => awaits_setTimer ?_⟩
      · rw [(keeps_setTimer _ _ _).tasks, hkeeps.tasks, tasksOf?, hs, Option.map_some]
      · rw [hkeeps.now]
        exact hahead

theorem ticking?_runKeepaliveTimer (hh : w.hubs[n]? = some h)
    (hc : w.config? h.context = some c) (hticking : h.ticking = true) :
    (w.runKeepaliveTimer n).ticking? n = some !isUnusable c.keepaliveInterval ∧
      (isUnusable c.keepaliveInterval = false →
        (w.runKeepaliveTimer n).Awaits (.keepaliveTimer n)) := by
  cases hdue : ticksDue w.now h.nextTick c.keepaliveInterval with
  | mk ticks next =>
    rw [runKeepaliveTimer_eq hh hc hticking hdue]
    cases hperiod : isUnusable c.keepaliveInterval with
    | true =>
      rw [if_pos rfl, endKeepalive]
      refine ⟨?_, nofun⟩
      rw [(keeps_clearTimer _ _).ticking, ticking?_updateHub, if_pos rfl, hh]
      rfl
    | false =>
      rw [if_neg Bool.false_ne_true]
      have hticks : Keeps w (ticks.fold (fun _ _ w => w.tickHub n) w) :=
        holds_ticks (fun w' h => h.trans (w'.keeps_tickHub n)) ⟨rfl, rfl, rfl⟩ ticks
      have hkeeps := hticks.trans
        (keeps_updateHub _ n (f := fun h => { h with nextTick := next }) fun _ => rfl)
      have hahead := lt_ticksDue w.now h.nextTick hperiod
      rw [hdue] at hahead
      refine ⟨?_, fun _ => awaits_setTimer ?_⟩
      · rw [(keeps_setTimer _ _ _).ticking, hkeeps.ticking, ticking?, hh, Option.map_some,
          hticking]
        rfl
      · rw [hkeeps.now]
        exact hahead

end

end

end Courier.Sim.World
