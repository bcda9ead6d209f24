import Courier.Proofs.Outbound.Steps
import Mathlib.Data.List.Rotate

/-!
Whose turn it is. The ring read from the cursor on, and round to it again, is the order
in which the messages will be asked. New messages join it somewhere, others leave it,
and a look for the next chunk moves those that were asked to its end; no operation
exchanges two messages otherwise.
-/

namespace Courier.Outbound

/-- The message has a chunk for the wire: one to be sent again that was not acknowledged
in the meantime, or a new one and room for it. -/
def Message.CanEmit (W : Nat) (m : Message) : Prop :=
  (∃ i ∈ m.lost, i ∉ m.acked) ∨ m.firstUnsent < m.total ∧ m.hasRoom W = true

theorem Message.dropWhile_acked_eq_nil_iff {m : Message} :
    m.lost.dropWhile (m.acked.contains ·) = [] ↔ ∀ i ∈ m.lost, i ∈ m.acked := by
  rw [List.dropWhile_eq_nil_iff]
  simp only [Std.TreeSet.mem_iff_contains]

/-- A message after it was asked for a chunk. -/
def Message.asked (W : Nat) (m : Message) : Message := (m.emit W).2

/-- A message that is asked gives a chunk just if it has one. -/
theorem Message.Sound.canEmit_iff {W : Nat} {m : Message} (h : m.Sound W) :
    m.CanEmit W ↔ (m.emit W).1 ≠ none := by
  have he := emits_emit W m
  generalize m.emit W = result at he
  obtain ⟨o, m'⟩ := result
  dsimp only at he ⊢
  cases he with
  | again i rest lost =>
    refine iff_of_true (Or.inl ⟨i, ?_, head_not_acked lost⟩) (by simp)
    exact (rest_sublist lost).subset List.mem_cons_self
  | fresh lost unsent room =>
    have := h.firstUnsent_le
    exact iff_of_true (Or.inr ⟨by omega, room⟩) (by simp)
  | idle lost stuck =>
    refine iff_of_false ?_ (by simp)
    rintro (⟨i, hi, hn⟩ | ⟨hlt, room⟩)
    · exact hn (dropWhile_acked_eq_nil_iff.mp lost i hi)
    · rcases stuck with hall | hfull
      · omega
      · rw [room] at hfull
        cases hfull

namespace Queue

/-- The cursor is at a message, or at the start. -/
def Placed (q : Queue) : Prop := q.cursor = 0 ∨ q.cursor < q.ring.length

/-- The messages in the order in which they will be asked. -/
def line (q : Queue) : List Message := q.ring.rotate q.cursor

/-- Their numbers. -/
def turns (q : Queue) : List UInt64 := (q.ring.map (·.sequence)).rotate q.cursor

/-- The message is in the queue and has a chunk for the wire. -/
def Able (q : Queue) (n : UInt64) : Prop := ∃ m, q.find? n = some m ∧ m.CanEmit q.maxFlight

theorem turns_eq_line (q : Queue) : q.turns = q.line.map (·.sequence) :=
  (List.map_rotate _ _ _).symm

theorem mem_line {q : Queue} {m : Message} : m ∈ q.line ↔ m ∈ q.ring := List.mem_rotate

theorem mem_turns {q : Queue} {n : UInt64} : n ∈ q.turns ↔ ∃ m, q.find? n = some m := by
  unfold turns find?
  rw [List.mem_rotate, ← Option.isSome_iff_exists, List.find?_isSome, List.mem_map]
  simp only [beq_iff_eq]

theorem Sound.nodup_turns {q : Queue} (h : q.Sound) : q.turns.Nodup :=
  List.nodup_rotate.mpr h.distinct

theorem Sound.distinct_line {q : Queue} (h : q.Sound) : Distinct q.line := by
  unfold Distinct
  rw [← turns_eq_line]
  exact h.nodup_turns

theorem Placed.cursor_le {q : Queue} (h : q.Placed) : q.cursor ≤ q.ring.length := by
  rcases h with h | h <;> omega

/-- The ring cut at the cursor, which counts round the ring. -/
theorem line_of_append {q : Queue} {early late : List Message} (hring : q.ring = early ++ late)
    (hcursor : q.cursor = early.length ∨ q.cursor = early.length % q.ring.length) :
    q.line = late ++ early := by
  rw [line]
  rcases hcursor with hc | hc
  · rw [hc, hring, List.rotate_append_length_eq]
  · rw [hc, List.rotate_mod, hring, List.rotate_append_length_eq]

theorem Placed.length_take {q : Queue} (h : q.Placed) :
    (q.ring.take q.cursor).length = q.cursor := by
  rw [List.length_take, Nat.min_eq_left h.cursor_le]

/-- The messages from the cursor on, and those before it. -/
theorem Placed.line_eq {q : Queue} (h : q.Placed) :
    q.line = q.ring.drop q.cursor ++ q.ring.take q.cursor :=
  line_of_append (List.take_append_drop _ _).symm (Or.inl h.length_take.symm)

/-! ## Taking in, changing and taking out -/

theorem ring_register {q q' : Queue} {dest : SocketAddr} {data : Bytes} {reliable : Bool}
    {n : UInt64} (hr : q.register dest data reliable = .ok (n, q')) :
    ∃ m, q'.ring = q.ring ++ [m] ∧ q'.cursor = q.cursor := by
  obtain ⟨_, _, _, _, _, pieces, _, rfl⟩ := register_eq_ok_iff.mp hr
  exact ⟨_, rfl, rfl⟩

theorem Placed.register {q q' : Queue} (h : q.Placed) {dest : SocketAddr} {data : Bytes}
    {reliable : Bool} {n : UInt64} (hr : q.register dest data reliable = .ok (n, q')) :
    q'.Placed := by
  obtain ⟨m, hring, hcursor⟩ := ring_register hr
  unfold Placed at h ⊢
  rw [hring, hcursor, List.length_append]
  omega

/-- A new message joins without parting the others. -/
theorem Placed.turns_register {q q' : Queue} (h : q.Placed) {dest : SocketAddr} {data : Bytes}
    {reliable : Bool} {n : UInt64} (hr : q.register dest data reliable = .ok (n, q')) :
    q.turns.Sublist q'.turns := by
  obtain ⟨m, hring, hcursor⟩ := ring_register hr
  have hring' : q'.ring = q.ring.take q.cursor ++ (q.ring.drop q.cursor ++ [m]) := by
    rw [hring, ← List.append_assoc, List.take_append_drop]
  rw [turns_eq_line, turns_eq_line, h.line_eq,
    line_of_append hring' (Or.inl (hcursor.trans h.length_take.symm)), List.append_assoc]
  exact ((List.Sublist.refl _).append (List.sublist_append_right _ _)).map _

theorem length_filter_ne {l : List Message} (hd : Distinct l) (s : UInt64) :
    (l.filter (·.sequence != s)).length =
      if l.any (·.sequence == s) then l.length - 1 else l.length := by
  rw [← eraseP_eq_filter hd, List.length_eraseP]

/-- The cursor stays behind the messages that were before it. -/
theorem cursor_remove {q : Queue} (hd : Distinct q.ring) (hp : q.Placed) (s : UInt64) :
    (q.remove s).cursor =
      if ((q.ring.take q.cursor).filter (·.sequence != s)).length < (q.remove s).ring.length then
        ((q.ring.take q.cursor).filter (·.sequence != s)).length
      else 0 := by
  have hlen := hp.length_take
  have hidx : q.ring.findIdx? (·.sequence == s) = _ :=
    (congrArg _ (List.take_append_drop q.cursor q.ring).symm).trans List.findIdx?_append
  rw [length_filter_ne (hd.sublist ((List.take_sublist _ _).map _)), hlen]
  unfold remove
  cases hearly : (q.ring.take q.cursor).findIdx? (·.sequence == s) with
  | some place =>
    have hlt := (List.findIdx?_eq_some_iff_findIdx_eq.mp hearly).1
    have hany : (q.ring.take q.cursor).any (·.sequence == s) = true := by
      rw [← List.findIdx?_isSome, hearly, Option.isSome_some]
    rw [hearly, Option.some_or] at hidx
    have hlt' : place < q.cursor := hlen ▸ hlt
    simp only [hidx, hany, if_pos hlt', ↓reduceIte]
  | none =>
    have hany : (q.ring.take q.cursor).any (·.sequence == s) = false := by
      rw [← List.findIdx?_isSome, hearly, Option.isSome_none]
    rw [hearly, Option.none_or, hlen] at hidx
    cases hlate : (q.ring.drop q.cursor).findIdx? (·.sequence == s) with
    | none =>
      rw [hlate, Option.map_none] at hidx
      rcases hp with h0 | hlt
      · simp [hidx, h0]
      · simp [hidx, hany, hlt]
    | some place =>
      rw [hlate, Option.map_some] at hidx
      have hge : ¬ place + q.cursor < q.cursor := by omega
      simp only [hidx, hany, if_neg hge, Bool.false_eq_true, ↓reduceIte]

/-- What is taken out leaves its turn to the others. -/
theorem Placed.line_remove {q : Queue} (hp : q.Placed) (hd : Distinct q.ring) (s : UInt64) :
    (q.remove s).Placed ∧ (q.remove s).line = q.line.filter (·.sequence != s) := by
  have hcursor := cursor_remove hd hp s
  have hring : (q.remove s).ring = (q.ring.take q.cursor).filter (·.sequence != s) ++
      (q.ring.drop q.cursor).filter (·.sequence != s) := by
    rw [ring_remove hd, ← List.filter_append, List.take_append_drop]
  rw [hp.line_eq, List.filter_append]
  refine ⟨?_, line_of_append hring ?_⟩
  · split at hcursor
    · exact Or.inr (by omega)
    · exact Or.inl hcursor
  · split at hcursor
    · exact Or.inl hcursor
    · -- nothing is left from the cursor on, so it goes back to the start
      have hle := congrArg List.length hring
      rw [List.length_append] at hle
      refine Or.inr (hcursor.trans ?_)
      rw [show (q.remove s).ring.length = _ from Nat.le_antisymm (Nat.not_lt.mp ‹_›) (by omega)]
      exact (Nat.mod_self _).symm

theorem Placed.line_foldl_remove {q : Queue} (hp : q.Placed) (hd : Distinct q.ring)
    (gone : List UInt64) :
    (gone.foldl Queue.remove q).Placed ∧
      (gone.foldl Queue.remove q).line = q.line.filter (fun m => !gone.contains m.sequence) := by
  induction gone generalizing q with
  | nil => exact ⟨hp, by simp⟩
  | cons s gone ih =>
    obtain ⟨hp', hline⟩ := hp.line_remove hd s
    obtain ⟨h1, h2⟩ := ih hp' (ring_remove hd s ▸ distinct_filter hd _)
    refine ⟨h1, ?_⟩
    rw [List.foldl_cons, h2, hline, List.filter_filter]
    apply List.filter_congr
    intro m _
    by_cases hm : m.sequence = s <;> simp [hm]

/-- What is left of the messages keeps its order, and the cursor its place. -/
def Keeps (q q' : Queue) : Prop :=
  q'.Placed ∧ ∃ keep : UInt64 → Bool, q'.turns = q.turns.filter keep

theorem Placed.keeps_of_eq {q q' : Queue} (hp : q.Placed)
    (hring : q'.ring.map (·.sequence) = q.ring.map (·.sequence)) (hcursor : q'.cursor = q.cursor) :
    Keeps q q' := by
  refine ⟨?_, fun _ => true, ?_⟩
  · have hlength := congrArg List.length hring
    rw [List.length_map, List.length_map] at hlength
    unfold Placed at hp ⊢
    rwa [hcursor, hlength]
  · rw [turns, hring, hcursor, ← turns, List.filter_true]

theorem Placed.keeps_remove {q : Queue} (hp : q.Placed) (hd : Distinct q.ring)
    (gone : List UInt64) : Keeps q (gone.foldl Queue.remove q) := by
  obtain ⟨h1, h2⟩ := hp.line_foldl_remove hd gone
  refine ⟨h1, fun n => !gone.contains n, ?_⟩
  rw [turns_eq_line, turns_eq_line, h2, List.filter_map]
  rfl

theorem Keeps.trans {q q' q'' : Queue} (h : Keeps q q') (g : Keeps q' q'') : Keeps q q'' := by
  obtain ⟨_, keep, hk⟩ := h
  obtain ⟨hp, keep', hk'⟩ := g
  exact ⟨hp, _, by rw [hk', hk, List.filter_filter]⟩

theorem Placed.keeps_update {q : Queue} (hp : q.Placed) (s : UInt64) (f : Message → Message)
    (hf : ∀ m, m.sequence = s → (f m).sequence = s) : Keeps q (q.update s f) :=
  hp.keeps_of_eq (numbers_update q s f hf) rfl

theorem Placed.keeps_acknowledge {q : Queue} (hp : q.Placed) (h : q.Sound) (ack : Chunk.Header) :
    Keeps q (q.acknowledge ack).2 := by
  have hack := acknowledges_acknowledge q ack
  generalize q.acknowledge ack = result at hack
  obtain ⟨b, q'⟩ := result
  dsimp only at hack ⊢
  cases hack with
  | ignored => exact hp.keeps_of_eq rfl rfl
  | progress m m' found taken open_ =>
    exact hp.keeps_update _ _ fun _ _ => acknowledge?_sequence found taken
  | settled m m' found taken all =>
    have hsame : ∀ x : Message, x.sequence = ack.sequence → m'.sequence = ack.sequence :=
      fun _ _ => acknowledge?_sequence found taken
    have hu := hp.keeps_update ack.sequence (fun _ => m') hsame
    exact hu.trans (hu.1.keeps_remove (distinct_update h.distinct _ _ hsame) [ack.sequence])

theorem Placed.keeps_tick {q : Queue} (hp : q.Placed) (h : q.Sound) (a b : Nat) :
    Keeps q (q.tick a b).2 := by
  have hsame : (q.ring.map fun m => (tickMessage q.maxFlight a b m).2.1).map (·.sequence) =
      q.ring.map (·.sequence) :=
    map_sequence_forall₂ (forall₂_map _ _) fun m m' hm => hm ▸ tickMessage_sequence _ a b m
  have hu : Keeps q { q with ring := q.ring.map fun m => (tickMessage q.maxFlight a b m).2.1 } :=
    hp.keeps_of_eq hsame rfl
  have hr := hu.1.keeps_remove (distinct_tick h.distinct q.maxFlight a b)
    (((q.ring.map (tickMessage q.maxFlight a b)).filter (·.1)).map (·.2.1.sequence))
  have := hu.trans hr
  unfold tick
  dsimp only
  rwa [List.map_map]

/-! ## Looking for the next chunk -/

variable {W : Nat} {l : List Message} {o : Outgoing}

/-- Those that are asked in vain leave the turn to the others. -/
theorem emitFirst_append {vain : List Message} (hvain : ∀ x ∈ vain, (x.emit W).1 = none)
    (l : List Message) : emitFirst W (vain ++ l) = ((emitFirst W l).1,
      vain.map (·.asked W) ++ (emitFirst W l).2.1, vain.length + (emitFirst W l).2.2) := by
  induction vain with
  | nil => simp
  | cons x vain ih =>
    obtain ⟨hx, hvain⟩ := List.forall_mem_cons.mp hvain
    rw [List.cons_append, emitFirst_cons_none _ hx, ih hvain]
    simp [Message.asked, Nat.add_right_comm]

theorem emitFirst_of_none (h : (emitFirst W l).1 = none) :
    emitFirst W l = (none, l.map (·.asked W), l.length) := by
  have heq := emitFirst_append (emitFirst_none h) []
  simpa [emitFirst] using heq

theorem asked_of_none (h : (emitFirst W l).1 = none) : (emitFirst W l).2.2 = l.length := by
  rw [emitFirst_of_none h]

/-- Those before the message that gives a chunk were asked in vain. -/
theorem emitFirst_eq_some (h : (emitFirst W l).1 = some o) :
    ∃ vain m later, l = vain ++ m :: later ∧ (∀ x ∈ vain, (x.emit W).1 = none) ∧
      (m.emit W).1 = some o ∧
      emitFirst W l = (some o, vain.map (·.asked W) ++ m.asked W :: later, vain.length + 1) := by
  have hfirst : ∃ vain m later, l = vain ++ m :: later ∧ (∀ x ∈ vain, (x.emit W).1 = none) ∧
      (m.emit W).1 = some o := by
    induction l with
    | nil => cases h
    | cons m l ih =>
      cases ho : (m.emit W).1 with
      | some c =>
        rw [emitFirst_cons_some l ho] at h
        cases h
        exact ⟨[], m, l, rfl, by simp, ho⟩
      | none =>
        rw [emitFirst_cons_none l ho] at h
        obtain ⟨vain, x, later, rfl, hvain, hx⟩ := ih h
        exact ⟨m :: vain, x, later, rfl, List.forall_mem_cons.mpr ⟨ho, hvain⟩, hx⟩
  obtain ⟨vain, m, later, rfl, hvain, hm⟩ := hfirst
  refine ⟨vain, m, later, rfl, hvain, hm, ?_⟩
  rw [emitFirst_append hvain, emitFirst_cons_some later hm]
  rfl

theorem asked_le (W : Nat) (l : List Message) : (emitFirst W l).2.2 ≤ l.length := by
  cases ho : (emitFirst W l).1 with
  | none => exact Nat.le_of_eq (asked_of_none ho)
  | some o =>
    obtain ⟨vain, m, later, rfl, _, _, hfirst⟩ := emitFirst_eq_some ho
    rw [hfirst, List.length_append, List.length_cons]
    show vain.length + 1 ≤ _
    omega

/-- The messages from the cursor on are asked first, and those before it if that was in
vain; the cursor moves behind the last one asked. -/
theorem Placed.asks {q : Queue} (hp : q.Placed) : ∃ early late, q.ring = early ++ late ∧
    q.cursor = early.length ∧
    ((∃ o, (emitFirst q.maxFlight late).1 = some o ∧ q.next = (some o, { q with
        ring := early ++ (emitFirst q.maxFlight late).2.1
        cursor := (early.length + (emitFirst q.maxFlight late).2.2) % q.ring.length })) ∨
      ((emitFirst q.maxFlight late).1 = none ∧ q.next = ((emitFirst q.maxFlight early).1, { q with
        ring := (emitFirst q.maxFlight early).2.1 ++ (emitFirst q.maxFlight late).2.1
        cursor := (emitFirst q.maxFlight early).2.2 }))) := by
  have hplace : (if q.cursor < q.ring.length then q.cursor else 0) = q.cursor := by
    rcases hp with h0 | hlt
    · simp [h0]
    · rw [if_pos hlt]
  have hlen := hp.length_take
  refine ⟨_, _, (List.take_append_drop q.cursor q.ring).symm, hlen.symm, ?_⟩
  rw [hlen]
  unfold next
  rw [hplace]
  dsimp only
  cases ho : (emitFirst q.maxFlight (q.ring.drop q.cursor)).1 with
  | some o =>
    rw [show emitFirst q.maxFlight (q.ring.drop q.cursor) = (some o, _, _) from Prod.ext ho rfl]
    exact Or.inl ⟨o, rfl, rfl⟩
  | none =>
    rw [show emitFirst q.maxFlight (q.ring.drop q.cursor) = (none, _, _) from Prod.ext ho rfl]
    exact Or.inr ⟨rfl, rfl⟩

/-- A message that was asked in vain has no chunk for the wire. -/
theorem Sound.not_able {q : Queue} (h : q.Sound) {l : List Message} (hl : l ⊆ q.ring)
    (hvain : ∀ x ∈ l, (x.emit q.maxFlight).1 = none) : ∀ n ∈ l.map (·.sequence), ¬ q.Able n := by
  rintro n hn ⟨m, hm, hcan⟩
  obtain ⟨x, hx, rfl⟩ := List.mem_map.mp hn
  cases (h.find?_iff.mpr ⟨hl hx, rfl⟩).symm.trans hm
  exact (h.message hm).canEmit_iff.mp hcan (hvain _ hx)

/-- Everything that a look for the next chunk can do to the line: all are asked in vain and
stay where they are, or the first one that has a chunk and those before it move to the end. -/
inductive Serves (W : Nat) (l : List Message) : Option Outgoing → List Message → Prop
  | idle (vain : ∀ x ∈ l, (x.emit W).1 = none) : Serves W l none (l.map (·.asked W))
  | found (o : Outgoing) (vain later : List Message) (m : Message)
      (first : l = vain ++ m :: later) (notAble : ∀ x ∈ vain, (x.emit W).1 = none)
      (emits : (m.emit W).1 = some o) :
      Serves W l (some o) (later ++ (vain.map (·.asked W) ++ [m.asked W]))

theorem Placed.serves {q : Queue} (hp : q.Placed) :
    q.next.2.Placed ∧ Serves q.maxFlight q.line q.next.1 q.next.2.line := by
  obtain ⟨early, late, hring, hcursor, hasks⟩ := hp.asks
  rw [line_of_append hring (Or.inl hcursor)]
  rcases hasks with ⟨o, ho, hnext⟩ | ⟨hnone, hnext⟩
  · -- found from the cursor on
    obtain ⟨vain, m, later, rfl, hvain, hm, hfirst⟩ := emitFirst_eq_some ho
    rw [hfirst] at hnext
    have hcut : q.next.2.ring =
        (early ++ (vain.map (·.asked q.maxFlight) ++ [m.asked q.maxFlight])) ++ later := by
      rw [hnext]
      simp
    have hc : q.next.2.cursor =
        (early ++ (vain.map (·.asked q.maxFlight) ++ [m.asked q.maxFlight])).length %
          q.next.2.ring.length := by
      rw [hnext, hring]
      simp
    have hpos : 0 < q.next.2.ring.length := by
      rw [hcut]
      simp only [List.length_append, List.length_singleton]
      omega
    have hfound := Serves.found o vain (later ++ early) m
      (List.append_assoc vain (m :: later) early) hvain hm
    refine ⟨Or.inr (by rw [hc]; exact Nat.mod_lt _ hpos), ?_⟩
    rw [line_of_append hcut (Or.inr hc), hnext, ← List.append_assoc later]
    exact hfound
  · -- nothing from the cursor on, so those before it are asked
    have hlate := emitFirst_none hnone
    rw [emitFirst_of_none hnone] at hnext
    cases ho : (emitFirst q.maxFlight early).1 with
    | some o =>
      obtain ⟨vain, m, later, rfl, hvain, hm, hfirst⟩ := emitFirst_eq_some ho
      rw [hfirst] at hnext
      have hcut : q.next.2.ring = (vain.map (·.asked q.maxFlight) ++ [m.asked q.maxFlight]) ++
          (later ++ late.map (·.asked q.maxFlight)) := by
        rw [hnext]
        simp
      have hc : q.next.2.cursor =
          (vain.map (·.asked q.maxFlight) ++ [m.asked q.maxFlight]).length := by
        rw [hnext]
        simp
      refine ⟨?_, ?_⟩
      · rcases hp with h0 | hlt
        · simp [h0] at hcursor
        · rw [hring, hcursor] at hlt
          refine Or.inr ?_
          rw [hc, hcut]
          simp at hlt ⊢
          omega
      · have hfound := Serves.found o (late ++ vain) later m (List.append_assoc _ _ _).symm
          (List.forall_mem_append.mpr ⟨hlate, hvain⟩) hm
        rw [line_of_append hcut (Or.inl hc), hnext]
        simpa using hfound
    | none =>
      rw [emitFirst_of_none ho] at hnext
      have hcut : q.next.2.ring =
          early.map (·.asked q.maxFlight) ++ late.map (·.asked q.maxFlight) := by rw [hnext]
      have hc : q.next.2.cursor = (early.map (·.asked q.maxFlight)).length := by
        rw [hnext]
        simp
      refine ⟨?_, ?_⟩
      · unfold Placed at hp ⊢
        rw [hc, hcut]
        rw [hcursor, hring] at hp
        simpa using hp
      · have hidle := Serves.idle (List.forall_mem_append.mpr ⟨hlate, emitFirst_none ho⟩)
        rw [List.map_append] at hidle
        rw [line_of_append hcut (Or.inl hc), hnext]
        exact hidle

/-- Everything that a look for the next chunk can do to the turns: it finds nothing and
leaves them, or it finds the first message in turn that has a chunk, and moves that
message and those before it to the end. -/
inductive Turns (q : Queue) : Option Outgoing → Queue → Prop
  | idle (q' : Queue) (same : q'.turns = q.turns) : Turns q none q'
  | found (o : Outgoing) (q' : Queue) (vain later : List UInt64)
      (first : q.turns = vain ++ o.header.sequence :: later) (notAble : ∀ n ∈ vain, ¬ q.Able n)
      (moved : q'.turns = later ++ (vain ++ [o.header.sequence])) : Turns q (some o) q'

theorem map_sequence_asked (W : Nat) (l : List Message) :
    (l.map (·.asked W)).map (·.sequence) = l.map (·.sequence) := by
  rw [List.map_map]
  exact List.map_congr_left fun m _ => (Message.emits_emit W m).kin.sequence

theorem Placed.next {q : Queue} (hp : q.Placed) (h : q.Sound) :
    q.next.2.Placed ∧ Turns q q.next.1 q.next.2 := by
  obtain ⟨hp', hserves⟩ := hp.serves
  refine ⟨hp', ?_⟩
  have hturns := turns_eq_line q.next.2
  generalize q.next = result at hserves hturns ⊢
  obtain ⟨out, q'⟩ := result
  dsimp only at hserves hturns ⊢
  generalize q'.line = line' at hserves hturns
  cases hserves with
  | idle vain => exact .idle q' (by rw [hturns, map_sequence_asked, turns_eq_line])
  | found o vain later m first notAble emits =>
    have hs : o.header.sequence = m.sequence := emits_sequence (Message.emits_of_fst emits)
    have hm : (m.asked q.maxFlight).sequence = m.sequence :=
      (Message.emits_emit q.maxFlight m).kin.sequence
    refine .found o q' (vain.map (·.sequence)) (later.map (·.sequence)) ?_ ?_ ?_
    · rw [turns_eq_line, first, hs]
      simp
    · refine h.not_able (fun x hx => mem_line.mp ?_) notAble
      rw [first]
      exact List.mem_append_left _ hx
    · rw [hturns, List.map_append, List.map_append, map_sequence_asked, hs]
      simp [hm]

end Queue

end Courier.Outbound
