import Courier.Proofs.Outbound.Drain
import Courier.Proofs.Outbound.Run

/-!
Dropping a peer, seen by the others. Main statement: in every queue that a run leads to, a
drain after a peer is dropped picks the same chunks in the same order as without, save those
to that peer. What is left in line keeps its order, and a chunk to the dropped peer leaves the
other messages as they are, so that the two drains go in step.
-/

namespace Courier.Outbound

theorem Message.Emits.dest_eq {W : Nat} {m m' : Message} {o : Outgoing}
    (h : Emits W m (some o) m') : o.dest = m.dest := by
  cases h <;> rfl

/-- Whether it has one more chunk or not, a message that gave one keeps its address. -/
theorem Message.filter_served (written : Bool) (W : Nat) (m : Message) (dest : SocketAddr) :
    ([m.served written W].filter (·.isReady W)).filter (·.dest != dest) =
      if m.dest = dest then [] else [m.served written W].filter (·.isReady W) := by
  have hdest := (kin_served written W m).dest
  cases hready : (m.served written W).isReady W <;> by_cases hm : m.dest = dest <;>
    simp [hready, hdest, hm]

namespace Queue

variable {written : Bool} {p q q' : Queue} {chunks : List Outgoing} {dest : SocketAddr}

theorem Placed.line_dropTo (hp : q.Placed) (hd : Distinct q.ring) (dest : SocketAddr) :
    (q.dropTo dest).2.Placed ∧ (q.dropTo dest).2.line = q.line.filter (·.dest != dest) := by
  obtain ⟨hp', hline⟩ := hp.line_foldl_remove hd ((q.ring.filter (·.dest == dest)).map (·.sequence))
  refine ⟨hp', hline.trans ?_⟩
  exact List.filter_congr fun m hm => congrArg _ (contains_sequence hd _ (mem_line.mp hm))

theorem Sound.ready_dropTo (h : q.Sound) (hp : q.Placed) (dest : SocketAddr) :
    (q.dropTo dest).2.ready = q.ready.filter (·.dest != dest) := by
  rw [ready, (dropTo_fields h.distinct dest).2.1, (hp.line_dropTo h.distinct dest).2,
    List.filter_filter, ready, List.filter_filter]
  exact List.filter_congr fun m _ => Bool.and_comm _ _

/-- The chunks of a drain depend on the messages that have one, and those to a peer can be
left out. -/
theorem Drains.spared (h : Drains written q chunks q') (hq : q.Sound) (hqp : q.Placed)
    (hp : p.Sound) (hpp : p.Placed) (hflight : p.maxFlight = q.maxFlight)
    (hready : p.ready = q.ready.filter (·.dest != dest)) :
    ∃ p', Drains written p (chunks.filter (·.dest != dest)) p' := by
  induction h generalizing p with
  | @done q empty =>
    rcases hq.ready_cases hqp written with ⟨hnil, _⟩ | ⟨o, _, _, _, _, ho, _⟩
    · rw [hnil, List.filter_nil] at hready
      rcases hp.ready_cases hpp written with ⟨_, hnone⟩ | ⟨_, m, rest, hcons, _⟩
      · exact ⟨_, .done hnone⟩
      · cases hready.symm.trans hcons
    · cases empty.symm.trans ho
  | @more q q' o chunks found rest ih =>
    rcases hq.ready_cases hqp written with ⟨_, hnone⟩ | ⟨o', m, later, hcons, hemit, ho', hafter⟩
    · cases hnone.symm.trans found
    obtain rfl : o' = o := Option.some.inj (ho'.symm.trans found)
    have hdest : o'.dest = m.dest := (Message.emits_of_fst hemit).dest_eq
    have hqflight := (picked_fields written q o').2.1
    have hq' := hq.picked written o'
    have hqp' := hqp.picked written o'
    rw [hcons] at hready
    by_cases hmine : m.dest = dest
    · -- the other drain does not see this chunk
      rw [List.filter_cons_of_neg (by simp [hdest, hmine])]
      refine ih hq' hqp' hp hpp (hflight.trans hqflight.symm) ?_
      rw [hready, hafter, List.filter_cons_of_neg (by simp [hmine]), List.filter_append,
        Message.filter_served, if_pos hmine, List.append_nil]
    · rw [List.filter_cons_of_pos (by simpa [hdest] using hmine)]
      rw [List.filter_cons_of_pos (by simpa using hmine)] at hready
      rcases hp.ready_cases hpp written with
        ⟨hnil, _⟩ | ⟨o₁, m₁, later₁, hcons₁, hemit₁, ho₁, hafter₁⟩
      · cases hready.symm.trans hnil
      obtain ⟨rfl, rfl⟩ := List.cons_eq_cons.mp (hcons₁.symm.trans hready)
      rw [hflight] at hemit₁ hafter₁
      obtain rfl : o₁ = o' := Option.some.inj (hemit₁.symm.trans hemit)
      have hpflight := (picked_fields written p o₁).2.1
      have hready' : (p.picked written o₁).ready =
          (q.picked written o₁).ready.filter (·.dest != dest) := by
        rw [hafter₁, hafter, List.filter_append, Message.filter_served, if_neg hmine]
      obtain ⟨p', hrest⟩ := ih hq' hqp' (hp.picked written o₁) (hpp.picked written o₁)
        ((hpflight.trans hflight).trans hqflight.symm) hready'
      exact ⟨p', .more ho₁ hrest⟩

/-- The queue `q'` is `q` without the messages to the peer, of which there are `n`. -/
structure Spares (dest : SocketAddr) (q : Queue) (n : Nat) (q' : Queue) : Prop where
  count : n = q.ring.countP (·.dest == dest)
  gone : ∀ s m, q'.find? s = some m → m.dest ≠ dest
  kept : ∀ s m, m.dest ≠ dest → (q'.find? s = some m ↔ q.find? s = some m)
  /-- both drains come to their end, and nothing but the chunks to the peer is missing -/
  drained : ∀ written, ∃ chunks, (∃ e, Drains written q chunks e) ∧
    ∃ e, Drains written q' (chunks.filter (·.dest != dest)) e

end Queue

namespace History

/-- Whatever was done with the queue, dropping a peer does not disturb the others. -/
theorem spared_run (cs W : Nat) (events : List Event) (dest : SocketAddr) :
    Queue.Spares dest (run cs W events).queue ((run cs W events).queue.dropTo dest).1
      ((run cs W events).queue.dropTo dest).2 := by
  have hs := sound_run cs W events
  have hq := hs.queue
  have hp := hs.placed
  generalize (run cs W events).queue = q at hq hp ⊢
  refine ⟨?_, ?_, ?_, ?_⟩
  · show List.length _ = _
    rw [List.length_map, List.countP_eq_length_filter]
  · intro s m hm
    rw [Queue.find?_dropTo hq, Option.filter_eq_some_iff] at hm
    simpa using hm.2
  · intro s m hm
    rw [Queue.find?_dropTo hq, Option.filter_eq_some_iff]
    exact and_iff_left (by simpa using hm)
  · intro written
    have hdrains := hq.drains hp written
    have hp' := (hp.line_dropTo hq.distinct dest).1
    exact ⟨_, ⟨_, hdrains⟩, hdrains.spared hq hp (hq.dropTo dest) hp'
      (Queue.dropTo_fields hq.distinct dest).2.1 (hq.ready_dropTo hp dest)⟩

end History

end Courier.Outbound
