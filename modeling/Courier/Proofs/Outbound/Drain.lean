import Courier.Proofs.Outbound.Turns
import Mathlib.Algebra.Order.BigOperators.Group.List
import Mathlib.Algebra.Order.Group.Nat

/-!
Chunks picked until there are no more, each of them written before the next one is picked, or
none of them. Such a drain comes to an end. As long as nothing else happens a message without
a chunk for the wire does not get one, so that the order of the chunks depends on the messages
that have one alone: the first of these gives a chunk and goes to the end of their line, or
leaves it with its last chunk.
-/

namespace Courier.Outbound

/-! ## One message -/

namespace Message

def isReady (W : Nat) (m : Message) : Bool := (m.emit W).1.isSome

/-- A message after it gave a chunk. -/
def served (written : Bool) (W : Nat) (m : Message) : Message :=
  if written then (m.asked W).markWritten else m.asked W

variable {W : Nat} {m m' : Message} {o : Option Outgoing}

theorem kin_asked (W : Nat) (m : Message) : Kin m (m.asked W) := (emits_emit W m).kin

theorem kin_served (written : Bool) (W : Nat) (m : Message) : Kin m (m.served written W) := by
  have h := kin_asked W m
  cases written with
  | false => exact h
  | true => exact ⟨h.sequence, h.dest, h.reliable, h.pieces⟩

theorem isReady_eq_false : m.isReady W = false ↔ (m.emit W).1 = none := by
  rw [isReady, Option.isSome_eq_false_iff, Option.isNone_iff_eq_none]

/-- A message that is asked in vain is asked in vain again. -/
theorem not_isReady_asked (h : (m.emit W).1 = none) : (m.asked W).isReady W = false := by
  have he : Emits W m none (m.asked W) := emits_of_fst h
  generalize m.asked W = m' at he
  cases he with
  | idle lost stuck =>
    have hstuck : (m.allSent || !m.hasRoom W) = true := by
      simpa [allSent] using stuck
    have hsame : ({ m with lost := [] } : Message).allSent = m.allSent ∧
        ({ m with lost := [] } : Message).hasRoom W = m.hasRoom W := ⟨rfl, rfl⟩
    rw [isReady_eq_false, emit]
    simp [hsame, hstuck]

/-- With every chunk fewer of them are left. -/
theorem Emits.backlog_add_le (h : Emits W m o m') (hs : m.Sound W) :
    m'.backlog + o.toList.length ≤ m.backlog := by
  have hle := hs.firstUnsent_le
  cases h with
  | again i rest lost =>
    have hlost := (rest_sublist lost).length_le
    show rest.length + (m.total - m.firstUnsent) + 1 ≤ m.lost.length + (m.total - m.firstUnsent)
    rw [List.length_cons] at hlost
    omega
  | fresh lost unsent =>
    show 0 + (m.total - (m.firstUnsent + 1)) + 1 ≤ m.lost.length + (m.total - m.firstUnsent)
    omega
  | idle =>
    show 0 + (m.total - m.firstUnsent) + 0 ≤ m.lost.length + (m.total - m.firstUnsent)
    omega

end Message

namespace Queue

/-! ## Picking a chunk -/

/-- The queue after its next chunk was picked. -/
def picked (written : Bool) (q : Queue) (o : Outgoing) : Queue :=
  if written then q.next.2.markWritten o.header.sequence else q.next.2

/-- Chunks are picked until there is none. -/
inductive Drains (written : Bool) : Queue → List Outgoing → Queue → Prop
  | done {q : Queue} (empty : q.next.1 = none) : Drains written q [] q.next.2
  | more {q q' : Queue} {o : Outgoing} {chunks : List Outgoing} (found : q.next.1 = some o)
      (rest : Drains written (q.picked written o) chunks q') : Drains written q (o :: chunks) q'

variable {written : Bool} {q q' : Queue} {o : Outgoing} {chunks : List Outgoing}

theorem picked_fields (written : Bool) (q : Queue) (o : Outgoing) :
    (q.picked written o).chunkSize = q.chunkSize ∧ (q.picked written o).maxFlight = q.maxFlight ∧
      (q.picked written o).nextNumber = q.nextNumber := by
  cases written <;> exact q.next_fields

theorem Sound.picked (h : q.Sound) (written : Bool) (o : Outgoing) :
    (q.picked written o).Sound := by
  cases written with
  | false => exact h.next
  | true => exact h.next.markWritten _

theorem Placed.picked (hp : q.Placed) (written : Bool) (o : Outgoing) :
    (q.picked written o).Placed := by
  cases written with
  | false => exact hp.serves.1
  | true => exact (hp.serves.1.keeps_update _ Message.markWritten fun _ hm => hm).1

/-! ## A drain ends -/

theorem backlog_eq_ring (q : Queue) : q.backlog = (q.ring.map Message.backlog).sum := by
  rw [backlog, List.sum_eq_foldl, List.foldl_map]

theorem backlog_eq_line (q : Queue) : q.backlog = (q.line.map Message.backlog).sum := by
  rw [backlog_eq_ring]
  exact ((List.rotate_perm q.ring q.cursor).map _).sum_eq.symm

theorem Serves.backlog_add_le {W : Nat} {l l' : List Message} {o : Option Outgoing}
    (h : Serves W l o l') (hs : ∀ m ∈ l, m.Sound W) :
    (l'.map Message.backlog).sum + o.toList.length ≤ (l.map Message.backlog).sum := by
  have hvain : ∀ vain ⊆ l,
      ((vain.map (·.asked W)).map Message.backlog).sum ≤ (vain.map Message.backlog).sum := by
    intro vain hsub
    rw [List.map_map]
    refine List.sum_le_sum fun m hm => ?_
    exact Nat.le_of_add_right_le ((Message.emits_emit W m).backlog_add_le (hs m (hsub hm)))
  cases h with
  | idle => exact hvain l (List.Subset.refl l)
  | found o vain later m first _ emits =>
    subst first
    have hrest := hvain vain (List.subset_append_left _ _)
    have hone := (Message.emits_of_fst emits).backlog_add_le (hs m (by simp))
    simp only [List.map_append, List.map_cons, List.map_nil, List.sum_append, List.sum_cons,
      List.sum_nil, Option.toList_some, List.length_singleton] at hrest hone ⊢
    unfold Message.asked at hrest ⊢
    omega

theorem backlog_picked (written : Bool) (q : Queue) (o : Outgoing) :
    (q.picked written o).backlog = q.next.2.backlog := by
  cases written with
  | false => rfl
  | true =>
    rw [backlog_eq_ring, backlog_eq_ring]
    show ((q.next.2.ring.map _).map _).sum = _
    rw [List.map_map]
    congr 1
    refine List.map_congr_left fun m _ => ?_
    rw [Function.comp_apply]
    split <;> rfl

theorem Sound.exists_drains (h : q.Sound) (hp : q.Placed) (written : Bool) :
    ∃ chunks q', Drains written q chunks q' ∧ chunks.length ≤ q.backlog := by
  induction hn : q.backlog using Nat.strong_induction_on generalizing q with
  | _ n ih =>
    cases ho : q.next.1 with
    | none => exact ⟨[], _, .done ho, Nat.zero_le _⟩
    | some o =>
      have hfewer := hp.serves.2.backlog_add_le fun m hm => h.messages m (mem_line.mp hm)
      rw [← backlog_eq_line, ← backlog_eq_line, ho, Option.toList_some, List.length_singleton,
        ← backlog_picked written q o, hn] at hfewer
      obtain ⟨chunks, q', hrest, hlength⟩ :=
        ih _ (by omega) (h.picked written o) (hp.picked written o) rfl
      exact ⟨o :: chunks, q', .more ho hrest, by rw [List.length_cons]; omega⟩

theorem Drains.drainOf_eq (h : Drains written q chunks q') {fuel : Nat}
    (hfuel : chunks.length < fuel) (known : Array Outgoing) :
    drainOf written fuel q known = (known ++ chunks.toArray, q') := by
  induction h generalizing fuel known with
  | @done q empty =>
    obtain ⟨fuel, rfl⟩ := Nat.exists_eq_succ_of_ne_zero (Nat.ne_of_gt hfuel)
    rw [drainOf, show q.next = (none, q.next.2) from Prod.ext empty rfl]
    simp
  | @more q q' o chunks found rest ih =>
    obtain ⟨fuel, rfl⟩ := Nat.exists_eq_succ_of_ne_zero (Nat.ne_of_gt (Nat.zero_lt_of_lt hfuel))
    rw [drainOf, show q.next = (some o, q.next.2) from Prod.ext found rfl]
    dsimp only
    refine (ih (Nat.lt_of_succ_lt_succ hfuel) _).trans ?_
    simp

/-- A queue is drained to its end. -/
theorem Sound.drains (h : q.Sound) (hp : q.Placed) (written : Bool) :
    Drains written q (q.drain written none).1.toList (q.drain written none).2 := by
  obtain ⟨chunks, q', hdrains, hlength⟩ := h.exists_drains hp written
  have heq : q.drain written none = (#[] ++ chunks.toArray, q') :=
    hdrains.drainOf_eq (Nat.lt_succ_of_le hlength) #[]
  rw [heq]
  simpa using hdrains

/-! ## Whose turn it is -/

/-- The messages in line that have a chunk for the wire. -/
def ready (q : Queue) : List Message := q.line.filter (·.isReady q.maxFlight)

/-- A chunk that was written counts for the message that gave it. -/
theorem Sound.line_picked (h : q.Sound) {vain later : List Message} {m : Message}
    (hline : q.next.2.line = later ++ (vain ++ [m.asked q.maxFlight]))
    (hs : o.header.sequence = m.sequence) :
    (q.picked written o).line = later ++ (vain ++ [m.served written q.maxFlight]) := by
  cases written with
  | false => exact hline
  | true =>
    have hm : (m.asked q.maxFlight).sequence = m.sequence :=
      (Message.kin_asked q.maxFlight m).sequence
    have hd := h.next.distinct_line
    unfold Distinct at hd
    rw [hline, ← List.append_assoc, List.map_append, List.nodup_append] at hd
    have hother : ∀ x ∈ later ++ vain, x.sequence ≠ o.header.sequence := by
      intro x hx
      rw [hs, ← hm]
      exact hd.2.2 _ (List.mem_map_of_mem hx) _ (by simp)
    show ((q.next.2.ring.map _).rotate q.next.2.cursor) = _
    rw [← List.map_rotate]
    show q.next.2.line.map _ = _
    rw [hline, ← List.append_assoc, List.map_append, map_update_of_ne hother,
      ← List.append_assoc later]
    simp [Message.served, hm, hs]

/-- The first message that has a chunk gives one, and then waits behind the others if it has
one more. -/
theorem Sound.ready_cases (h : q.Sound) (hp : q.Placed) (written : Bool) :
    (q.ready = [] ∧ q.next.1 = none) ∨
      ∃ o m rest, q.ready = m :: rest ∧ (m.emit q.maxFlight).1 = some o ∧ q.next.1 = some o ∧
        (q.picked written o).ready =
          rest ++ [m.served written q.maxFlight].filter (·.isReady q.maxFlight) := by
  have hserves := hp.serves.2
  have hvain : ∀ l : List Message, (∀ x ∈ l, (x.emit q.maxFlight).1 = none) →
      l.filter (·.isReady q.maxFlight) = [] := fun l hl =>
    List.filter_eq_nil_iff.mpr fun x hx => by simp [Message.isReady_eq_false.mpr (hl x hx)]
  generalize q.next.1 = out at hserves ⊢
  generalize hline : q.next.2.line = line' at hserves
  cases hserves with
  | idle vain => exact Or.inl ⟨hvain _ vain, rfl⟩
  | found o vain later m first notAble emits =>
    have hs : o.header.sequence = m.sequence := emits_sequence (Message.emits_of_fst emits)
    have hready : m.isReady q.maxFlight = true := by rw [Message.isReady, emits, Option.isSome_some]
    refine Or.inr ⟨o, m, later.filter (·.isReady q.maxFlight), ?_, emits, rfl, ?_⟩
    · rw [ready, first, List.filter_append, hvain _ notAble, List.filter_cons_of_pos hready,
        List.nil_append]
    · have hasked : (vain.map (·.asked q.maxFlight)).filter (·.isReady q.maxFlight) = [] := by
        refine List.filter_eq_nil_iff.mpr fun x hx => ?_
        obtain ⟨y, hy, rfl⟩ := List.mem_map.mp hx
        simp [Message.not_isReady_asked (notAble y hy)]
      rw [ready, (picked_fields written q o).2.1, h.line_picked hline hs, List.filter_append,
        List.filter_append, hasked, List.nil_append]

end Queue

end Courier.Outbound
