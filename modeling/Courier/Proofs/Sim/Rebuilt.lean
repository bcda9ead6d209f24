import Courier.Proofs.Sim.Refused
import Courier.Proofs.Stream.Reached

/-!
Pools that are rebuilt, and how often. Whoever looks for a pooled connection gets a live one;
the statistics count exactly the searches that found a pool full of live connections to
others.
-/

namespace Courier.Sim.World

open Courier.Stream

/-- The count of rebuilt pools in the statistics of a context. -/
def rebuilds (w : World) (n : Nat) : Option UInt64 := (w.contexts[n]?).map (·.stats.poolRebuilds)

theorem rebuilds_count (w : World) (context n : Nat) :
    (w.count context Stats.poolRebuilt).rebuilds n =
      if n = context then (w.rebuilds n).map (· + 1) else w.rebuilds n := by
  rw [rebuilds, rebuilds, Option.map_map]
  exact map_getElem?_modify w.contexts context _ (·.stats.poolRebuilds) n

theorem rebuilds_congr {w w' : World} (h : w'.contexts = w.contexts) :
    w'.rebuilds = w.rebuilds := by
  funext n
  rw [rebuilds, h, rebuilds]

/-- What is counted of a search for a pooled connection, and what it leaves behind. -/
structure Counts (w w' : World) (context : Nat) (x : Reached) (rebuilt : Prop) : Prop where
  roster : w'.roster = x.roster
  counted : rebuilt → w'.rebuilds context = (w.rebuilds context).map (· + 1)
  uncounted : ¬ rebuilt → w'.rebuilds = w.rebuilds
  others : ∀ n ≠ context, w'.rebuilds n = w.rebuilds n

theorem counts_applyReach (w : World) (hub context : Nat) (localPort : UInt16) (x : Reached) :
    Counts w
      (w.applyReach hub context localPort x.closed x.opened x.rebuilt x.roster x.channel)
      context x (x.rebuilt = true) := by
  have hsame := w.same_applyReach hub context localPort x.closed x.opened x.rebuilt x.roster
    x.channel
  have hrebuilds := rebuilds_congr hsame.contexts
  refine ⟨hsame.roster, fun hr => ?_, fun hr => ?_, fun n hn => ?_⟩
  · rw [hrebuilds, hr]
    exact (w.rebuilds_count context context).trans (if_pos rfl)
  · rw [hrebuilds, Bool.eq_false_iff.mpr hr]
    rfl
  · rw [hrebuilds]
    cases x.rebuilt with
    | false => rfl
    | true => exact (w.rebuilds_count context n).trans (if_neg hn)

/-- Whatever happened before, the search for a pooled connection finds a live one, as long as
there is a slot at all. The pool is rebuilt, which is counted, exactly if it is full of live
connections to others. If it is not, no live connection is closed; if it is, all pooled ones
are, and what they received is returned before anything that comes from a slot. -/
theorem rebuilt_run (c : Config) (hsize : 1 ≤ c.poolSize) (tracked : Bool)
    (before : List Service.Event) (a : SocketAddr) :
    let s := Service.run c tracked before
    ∃ x, s.channel.reach c s.roster a = some x ∧ s.Finds a x ∧
      (¬ s.Exhausted a → ∀ k, s.roster.live k = true → x.roster.live k = true) ∧
      (s.Exhausted a → s.Clears a x) ∧
      ∀ (w : World) (hub context : Nat) (localPort : UInt16),
        Counts w
          (w.applyReach hub context localPort x.closed x.opened x.rebuilt x.roster x.channel)
          context x (s.Exhausted a) := by
  intro s
  have h : s.Sound := Service.sound_run c tracked before
  have hconfig : s.config = c := Service.config_run c tracked before
  have hpos : 0 < s.channel.pool.size := by rw [h.size, hconfig]; exact hsize
  obtain ⟨x, hx, hfinds, hiff, hspared, hclears⟩ := h.reaches hpos a
  rw [hconfig] at hx
  refine ⟨x, hx, hfinds, fun hnot => hspared (Bool.eq_false_iff.mpr (mt hiff.mp hnot)),
    fun hfull => hclears (hiff.mpr hfull), fun w hub context localPort => ?_⟩
  rw [← hiff]
  exact w.counts_applyReach hub context localPort x

/-- One slot, and a live connection in it that received something. -/
def oneSlot : Service :=
  Service.run { poolSize := 1 } false
    [.acquire ⟨.v4 127 0 0 1, 9001, 0⟩, .happen 0 .establish,
      .happen 0 (.receive (Frame.encode [0x31]))]

theorem rebuilt_oneSlot :
    1 ≤ ({ poolSize := 1 } : Config).poolSize ∧ oneSlot.Exhausted ⟨.v4 127 0 0 1, 9000, 0⟩ ∧
      ∃ x, oneSlot.channel.reach { poolSize := 1 } oneSlot.roster ⟨.v4 127 0 0 1, 9000, 0⟩ =
        some x ∧ oneSlot.Clears ⟨.v4 127 0 0 1, 9000, 0⟩ x := by
  have hsize : 1 ≤ ({ poolSize := 1 } : Config).poolSize := by decide
  have hfull : oneSlot.Exhausted ⟨.v4 127 0 0 1, 9000, 0⟩ := by
    refine ⟨fun i hi => ?_, ?_⟩
    · have hone : oneSlot.channel.pool.size = 1 := by decide +kernel
      obtain rfl : i = 0 := Nat.lt_one_iff.mp (hone ▸ hi)
      exact ⟨0, by decide +kernel, by decide +kernel⟩
    · decide +kernel
  obtain ⟨x, hx, _, _, hclears, _⟩ := rebuilt_run _ hsize false
    [.acquire ⟨.v4 127 0 0 1, 9001, 0⟩, .happen 0 .establish,
      .happen 0 (.receive (Frame.encode [0x31]))] ⟨.v4 127 0 0 1, 9000, 0⟩
  exact ⟨hsize, hfull, x, hx, hclears hfull⟩

end Courier.Sim.World
