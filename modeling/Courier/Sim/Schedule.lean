import Courier.Sim.Ownership
import Courier.Sim.Tasks

/-!
The order of events in a simulated world. Woken tasks run first come, first
served, until all have to wait; only then does time pass, from one due timer to
the next.
-/

namespace Courier.Sim.World

/-- Whether something may be without a holder after the turn of a task. -/
def letsGo (ended : Bool) : Task → Bool
  | .connection _ => false
  | .keepaliveTimer _ | .call _ => true
  | _ => ended

/-- The turn of a task: it runs, or it ends if it was aborted. -/
def turn (w : World) (t : Task) : World :=
  let ended : Bool := t ∈ w.aborted
  let w :=
    if ended then { w with aborted := w.aborted.filter (· ≠ t) }.endTask t else w.run t
  if letsGo ended t then w.sweep else w

/-- Runs at most `fuel` woken tasks. -/
def settleFor : (fuel : Nat) → World → World
  | 0, w => w
  | fuel + 1, w =>
    match w.ready with
    | [] => w
    | t :: rest => settleFor fuel ({ w with ready := rest }.turn t)

/-- More tasks than any world wakes at one instant. -/
def settleFuel : Nat := 1000000000000

/-- Runs woken tasks until none is left. -/
def settle (w : World) : World := settleFor settleFuel w

/-- The instant of the next timer. -/
def nextDue? (w : World) : Option Instant := (w.timers.map (·.due)).min?

/-- Goes to a later instant, wakes all tasks whose timers are due then, and lets
the world settle. -/
def jump (w : World) (due : Instant) : World :=
  let (fired, kept) := w.timers.partition (·.due ≤ due)
  let w := { w with now := max w.now due, timers := kept }
  (fired.foldl (fun w t => w.wake t.task) w).settle

/-- Passes at most `fuel` instants with due timers, none of them after `stop`. -/
def advanceFor : (fuel : Nat) → World → (stop : Instant) → World
  | 0, w, _ => w
  | fuel + 1, w, stop =>
    match w.nextDue? with
    | none => w
    | some due => if stop < due then w else advanceFor fuel (w.jump due) stop

/-- Lets time pass up to an instant. Timers fire at whole milliseconds, so that
this bounds the instants with due timers. -/
def advance (w : World) (stop : Instant) : World :=
  let w := advanceFor ((stop - w.now) / Duration.perMilli + 1) w stop
  { w with now := max w.now stop }

/-- Lets time pass until a condition holds, or nothing is left to wait for. -/
def passUntil (done : World → Bool) : (fuel : Nat) → World → World
  | 0, w => w
  | fuel + 1, w =>
    if done w then w
    else
      match w.nextDue? with
      | none => w
      | some due => passUntil done fuel (w.jump due)

/-- Lets time pass until a call has its answer, which is false if there is never
one. The call runs before all other tasks. -/
def awaitCall (w : World) (n : Nat) : Bool × World :=
  let w := { w with foreground := some (.call n) }
  let answer? (w : World) := (w.calls[n]?).bind (·.answer?)
  let w := passUntil (fun w => (answer? w).isSome) settleFuel w.settle
  ((answer? w).getD false, { w with foreground := none })

end Courier.Sim.World
