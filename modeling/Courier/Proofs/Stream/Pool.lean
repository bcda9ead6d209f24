import Courier.Proofs.Lists
import Courier.Stream.Pool
import Mathlib.Data.List.Induction

/-!
The slots of a pool and the peers that they belong to: what the emptying of slots and the
seating of a connection do to them, and what the wish for a connection can come to.
-/

namespace Courier.Stream.Pool

variable {κ : Type}

theorem mem_connections {p : Pool κ} {k : κ} : k ∈ p.connections ↔ ∃ i, p.slot? i = some k := by
  unfold connections slot?
  simp only [List.mem_filterMap, Array.mem_toList_iff, id_eq, Option.join_eq_some_iff,
    Array.mem_iff_getElem?, exists_eq_right]

theorem lt_size {p : Pool κ} {i : Nat} {k : κ} (h : p.slot? i = some k) : i < p.size := by
  unfold slot? at h
  rw [Option.join_eq_some_iff] at h
  exact (Array.getElem?_eq_some_iff.mp h).1

theorem slot?_eq {p : Pool κ} {i : Nat} (h : i < p.slots.size) : p.slot? i = p.slots[i] := by
  unfold slot?
  rw [Array.getElem?_eq_getElem h, Option.join_some]

theorem isFree_iff {live : κ → Bool} {slot : Option κ} :
    isFree live slot = true ↔ ∀ k, slot = some k → live k = false := by
  cases slot <;> simp [isFree]

/-! ## Slots that are emptied -/

/-- What the emptying of slots makes of a pool: their connections are closed, and wait
behind those that left before. -/
structure Empties (places : List Nat) (p p' : Pool κ) (closed : List κ) : Prop where
  slots : ∀ j, p'.slot? j = if j ∈ places then none else p.slot? j
  peers : p'.slotByPeer = p.slotByPeer.filter fun x => x.2 ∉ places
  size : p'.size = p.size
  released : p'.released = p.released ++ closed
  mem : ∀ k, k ∈ closed ↔ ∃ i ∈ places, p.slot? i = some k
  nodup : (∀ i j k, p.slot? i = some k → p.slot? j = some k → i = j) → closed.Nodup

theorem Empties.nil (p : Pool κ) : Empties [] p p [] where
  slots := by simp
  peers := by simp
  size := rfl
  released := (List.append_nil _).symm
  mem := by simp
  nodup := fun _ => List.nodup_nil

theorem Empties.append {a b : List Nat} {p p' p'' : Pool κ} {closed closed' : List κ}
    (h : Empties a p p' closed) (h' : Empties b p' p'' closed') :
    Empties (a ++ b) p p'' (closed ++ closed') where
  slots := fun j => by
    rw [h'.slots, h.slots]
    by_cases ha : j ∈ a <;> by_cases hb : j ∈ b <;> simp [ha, hb]
  peers := by
    rw [h'.peers, h.peers, List.filter_filter]
    simp [not_or, Bool.and_comm]
  size := h'.size.trans h.size
  released := by rw [h'.released, h.released, List.append_assoc]
  mem := fun k => by
    rw [List.mem_append, h.mem, h'.mem]
    constructor
    · rintro (⟨i, hi, hk⟩ | ⟨i, hi, hk⟩)
      · exact ⟨i, List.mem_append_left b hi, hk⟩
      · rw [h.slots] at hk
        split at hk
        · cases hk
        · exact ⟨i, List.mem_append_right a hi, hk⟩
    · rintro ⟨i, hi, hk⟩
      by_cases ha : i ∈ a
      · exact Or.inl ⟨i, ha, hk⟩
      · exact Or.inr ⟨i, (List.mem_append.mp hi).resolve_left ha, by rw [h.slots, if_neg ha, hk]⟩
  nodup := fun hapart => by
    have hslot : ∀ {i k}, p'.slot? i = some k → i ∉ a ∧ p.slot? i = some k := fun {i k} hk => by
      rw [h.slots] at hk
      split at hk
      · cases hk
      · exact ⟨‹_›, hk⟩
    refine List.nodup_append.mpr ⟨h.nodup hapart, h'.nodup fun i j k hi hj =>
      hapart i j k (hslot hi).2 (hslot hj).2, ?_⟩
    -- a connection that left one of the first slots is in none of the later ones
    rintro k hk _ hk' rfl
    obtain ⟨i, hi, hik⟩ := (h.mem k).mp hk
    obtain ⟨j, _, hjk⟩ := (h'.mem k).mp hk'
    exact (hslot hjk).1 (hapart i j k hik (hslot hjk).2 ▸ hi)

theorem empties_release (p : Pool κ) (i : Nat) :
    Empties [i] p (p.release i).1 (p.release i).2.toList := by
  unfold release
  cases hi : p.slot? i with
  | none =>
    refine ⟨fun j => ?_, by simp, rfl, (List.append_nil _).symm, by simp [hi], fun _ => by simp⟩
    show p.slot? j = _
    by_cases hj : j = i <;> simp [hj, hi]
  | some k =>
    refine ⟨fun j => ?_, by simp, Array.size_setIfInBounds, rfl, by simp [hi, eq_comm],
      fun _ => by simp⟩
    show ((p.slots.setIfInBounds i none)[j]?).join = _
    rw [Array.getElem?_setIfInBounds]
    by_cases hj : i = j
    · subst hj
      have hlt : i < p.slots.size := lt_size hi
      simp [hlt]
    · simp [hj, Ne.symm hj, slot?]

theorem releaseAll_append (p : Pool κ) (places : List Nat) (i : Nat) :
    p.releaseAll (places ++ [i]) =
      (((p.releaseAll places).1.release i).1,
        (p.releaseAll places).2 ++ ((p.releaseAll places).1.release i).2.toList) := by
  unfold releaseAll
  rw [List.foldl_append, List.foldl_cons, List.foldl_nil]

theorem empties_releaseAll (p : Pool κ) (places : List Nat) :
    Empties places p (p.releaseAll places).1 (p.releaseAll places).2 := by
  induction places using List.reverseRecOn with
  | nil => exact .nil p
  | append_singleton places i ih =>
    rw [releaseAll_append]
    exact ih.append (empties_release _ i)

theorem Empties.mem_of_closed {places : List Nat} {p p' : Pool κ} {closed : List κ}
    (he : Empties places p p' closed) {k : κ} (hk : k ∈ closed) : k ∈ p.connections := by
  obtain ⟨i, _, hi⟩ := (he.mem k).mp hk
  exact mem_connections.mpr ⟨i, hi⟩

/-! ## Slots that are polled -/

/-- What a poll makes of a pool: connections outside the slots are let go of that had
nothing. -/
structure Polls (waiting : κ → Bool) (p p' : Pool κ) (drained : List κ) : Prop where
  slots : p'.slots = p.slots
  peers : p'.slotByPeer = p.slotByPeer
  released : p.released = drained ++ p'.released
  drained : ∀ k ∈ drained, waiting k = false

theorem polls_pollSlots (waiting : κ → Bool) (tries : Nat) (p : Pool κ) (asked : List κ) :
    Polls waiting p (pollSlots waiting tries p asked).pool [] := by
  induction tries generalizing p asked with
  | zero => exact ⟨rfl, rfl, rfl, by simp⟩
  | succ tries ih =>
    -- a slot that is asked only moves the cursor
    have hmoved (asked : List κ) :
        Polls waiting p
          (pollSlots waiting tries { p with cursor := (p.cursor + 1) % p.size } asked).pool [] := by
      have h := ih { p with cursor := (p.cursor + 1) % p.size } asked
      exact ⟨h.slots, h.peers, h.released, h.drained⟩
    unfold pollSlots
    dsimp only
    split
    · exact hmoved asked
    · split
      · exact ⟨rfl, rfl, rfl, by simp⟩
      · exact hmoved _

theorem polls_poll (waiting : κ → Bool) (p : Pool κ) :
    Polls waiting p (p.poll waiting).pool (p.released.takeWhile (!waiting ·)) := by
  have hdrained : ∀ k ∈ p.released.takeWhile (!waiting ·), waiting k = false := fun k hk => by
    simpa using List.all_eq_true.mp List.all_takeWhile k hk
  have happend := List.takeWhile_append_dropWhile (p := (!waiting ·)) (l := p.released)
  unfold poll
  dsimp only
  split
  · next k rest hrest => exact ⟨rfl, rfl, by rw [← hrest, happend], hdrained⟩
  · next hrest =>
    have hslots := polls_pollSlots waiting p.size { p with released := [] }
      (p.released.takeWhile (!waiting ·))
    refine ⟨hslots.slots, hslots.peers, ?_, hdrained⟩
    have hempty : ([] : List κ) = [] ++ _ := hslots.released
    rw [List.nil_append] at hempty
    rw [← hempty, ← hrest, happend]

/-! ## The invariant -/

/-- Each peer has the slot that holds the connection opened for it. -/
structure Sound (peer : κ → Option SocketAddr) (p : Pool κ) : Prop where
  distinct : (p.slotByPeer.map (·.1)).Nodup
  mapped : ∀ a i, p.slotOf? a = some i ↔ ∃ k, p.slot? i = some k ∧ peer k = some a
  known : ∀ i k, p.slot? i = some k → ∃ a, peer k = some a

section

variable {peer : κ → Option SocketAddr} {p p' : Pool κ}

/-- No connection is in two slots. -/
theorem Sound.apart (h : p.Sound peer) {i j : Nat} {k : κ} (hi : p.slot? i = some k)
    (hj : p.slot? j = some k) : i = j := by
  obtain ⟨a, ha⟩ := h.known i k hi
  have hi' := (h.mapped a i).mpr ⟨k, hi, ha⟩
  have hj' := (h.mapped a j).mpr ⟨k, hj, ha⟩
  exact Option.some.inj (hi'.symm.trans hj')

theorem connections_congr (hs : p'.slots = p.slots) : p'.connections = p.connections := by
  rw [connections, hs, connections]

theorem Sound.congr (h : p.Sound peer) (hs : p'.slots = p.slots)
    (hp : p'.slotByPeer = p.slotByPeer) : p'.Sound peer := by
  have hslot : p'.slot? = p.slot? := by
    funext i
    rw [slot?, hs, slot?]
  have hslotOf : p'.slotOf? = p.slotOf? := by
    funext a
    rw [Pool.slotOf?, hp, Pool.slotOf?]
  exact ⟨hp ▸ h.distinct, by rw [hslot, hslotOf]; exact h.mapped, by rw [hslot]; exact h.known⟩

theorem Sound.congr_peer (h : p.Sound peer) {peer' : κ → Option SocketAddr}
    (hsame : ∀ i k, p.slot? i = some k → peer' k = peer k) : p.Sound peer' where
  distinct := h.distinct
  mapped := fun a i => by
    rw [h.mapped]
    exact exists_congr fun k => and_congr_right fun hk => by rw [hsame i k hk]
  known := fun i k hk => by
    rw [hsame i k hk]
    exact h.known i k hk

theorem Empties.mem_connections {places : List Nat} {closed : List κ}
    (he : Empties places p p' closed)
    (hapart : ∀ i j k, p.slot? i = some k → p.slot? j = some k → i = j) (k : κ) :
    k ∈ p'.connections ↔ k ∈ p.connections ∧ k ∉ closed := by
  rw [Pool.mem_connections, Pool.mem_connections, he.mem]
  constructor
  · rintro ⟨i, hi⟩
    rw [he.slots] at hi
    split at hi
    · cases hi
    · next hout =>
      refine ⟨⟨i, hi⟩, ?_⟩
      rintro ⟨j, hj, hk⟩
      exact hout (hapart j i k hk hi ▸ hj)
  · rintro ⟨⟨i, hi⟩, hout⟩
    have hplace : i ∉ places := fun hm => hout ⟨i, hm, hi⟩
    exact ⟨i, by rw [he.slots, if_neg hplace, hi]⟩

theorem Empties.slotOf? {places : List Nat} {closed : List κ} (he : Empties places p p' closed)
    (hd : (p.slotByPeer.map (·.1)).Nodup) (a : SocketAddr) :
    p'.slotOf? a = (p.slotOf? a).filter (· ∉ places) := by
  unfold Pool.slotOf?
  rw [he.peers, lookup_filter hd fun i => decide (i ∉ places)]

theorem Sound.empties (h : p.Sound peer) {places : List Nat} {closed : List κ}
    (he : Empties places p p' closed) : p'.Sound peer where
  distinct := he.peers ▸ h.distinct.sublist (List.filter_sublist.map _)
  mapped := fun a i => by
    rw [he.slotOf? h.distinct, Option.filter_eq_some_iff, h.mapped, he.slots]
    by_cases hi : i ∈ places <;> simp [hi]
  known := fun i k hk => by
    rw [he.slots] at hk
    split at hk
    · cases hk
    · exact h.known i k hk

theorem slot?_seat {i : Nat} (hi : i < p.size) (a : SocketAddr) (k : κ) (j : Nat) :
    (p.seat i a k).slot? j = if j = i then some k else p.slot? j := by
  show ((p.slots.setIfInBounds i (some k))[j]?).join = _
  rw [Array.getElem?_setIfInBounds]
  by_cases hj : i = j
  · subst hj
    have hlt : i < p.slots.size := hi
    simp [hlt]
  · simp [hj, Ne.symm hj, slot?]

theorem mem_connections_seat {i : Nat} (hi : i < p.size) (hempty : p.slot? i = none)
    (a : SocketAddr) (k l : κ) : l ∈ (p.seat i a k).connections ↔ l = k ∨ l ∈ p.connections := by
  simp only [mem_connections, slot?_seat hi]
  constructor
  · rintro ⟨j, hj⟩
    by_cases hji : j = i
    · rw [if_pos hji] at hj
      exact Or.inl (Option.some.inj hj).symm
    · rw [if_neg hji] at hj
      exact Or.inr ⟨j, hj⟩
  · rintro (rfl | ⟨j, hj⟩)
    · exact ⟨i, if_pos rfl⟩
    · have hji : j ≠ i := fun h => by
        rw [h, hempty] at hj
        cases hj
      exact ⟨j, by rw [if_neg hji, hj]⟩

theorem slotOf?_seat (i : Nat) (a : SocketAddr) (k : κ) (b : SocketAddr) :
    (p.seat i a k).slotOf? b = if b = a then some i else p.slotOf? b := by
  unfold slotOf? seat
  by_cases hb : b = a
  · simp [hb]
  · have hne : (b == a) = false := beq_eq_false_iff_ne.mpr hb
    simp [List.lookup_cons, hne, hb]

theorem Sound.seat (h : p.Sound peer) {peer' : κ → Option SocketAddr} {i : Nat} (hi : i < p.size)
    (hempty : p.slot? i = none) {a : SocketAddr} (hunmapped : p.slotOf? a = none) {k : κ}
    (hk : peer' k = some a) (hsame : ∀ j l, p.slot? j = some l → peer' l = peer l) :
    (p.seat i a k).Sound peer' where
  distinct := by
    refine List.nodup_cons.mpr ⟨fun hm => ?_, h.distinct⟩
    obtain ⟨j, hj⟩ := mem_keys_iff.mp hm
    rw [show p.slotByPeer.lookup a = none from hunmapped] at hj
    cases hj
  mapped := fun b j => by
    rw [slotOf?_seat, slot?_seat hi]
    by_cases hj : j = i
    · subst hj
      by_cases hb : b = a
      · simp [hb, hk]
      · -- the slot was empty, so that it belonged to no peer
        have hnot : p.slotOf? b ≠ some j := fun hm => by
          obtain ⟨l, hl, _⟩ := (h.mapped b j).mp hm
          rw [hempty] at hl
          cases hl
        simp [hb, hnot, hk, Ne.symm hb]
    · have hold : (∃ l, p.slot? j = some l ∧ peer' l = some b) ↔ p.slotOf? b = some j := by
        rw [h.mapped]
        exact exists_congr fun l => and_congr_right fun hl => by rw [hsame j l hl]
      rw [if_neg hj, hold]
      by_cases hb : b = a
      · simp [hb, hunmapped, Ne.symm hj]
      · rw [if_neg hb]
  known := fun j l hl => by
    rw [slot?_seat hi] at hl
    by_cases hj : j = i
    · rw [if_pos hj] at hl
      cases hl
      exact ⟨a, hk⟩
    · rw [if_neg hj] at hl
      rw [hsame j l hl]
      exact h.known j l hl

/-! ## The wish for a connection, case by case -/

/-- Everything that the wish for a connection to a peer can come to. -/
inductive Attempts (p : Pool κ) (live : κ → Bool) (a : SocketAddr) (fresh : κ) :
    Attempt κ → Prop
  | held (i : Nat) (k : κ) (mapped : p.slotOf? a = some i) (found : p.slot? i = some k)
      (alive : live k = true) : Attempts p live a fresh ⟨some (k, false), [], p⟩
  | full (unmapped : p.slotOf? a = none)
      (busy : ∀ i < p.size, ∃ k, p.slot? i = some k ∧ live k = true) :
      Attempts p live a fresh ⟨none, [], p⟩
  /-- slots of disconnected connections are emptied, and one of them is taken -/
  | placed (places : List Nat) (i : Nat) (p' : Pool κ) (closed : List κ)
      (empties : Empties places p p' closed) (taken : i ∈ places) (inside : i < p.size)
      (dead : ∀ j ∈ places, ∀ k, p.slot? j = some k → live k = false)
      (stale : ∀ j, p.slotOf? a = some j → j ∈ places) :
      Attempts p live a fresh ⟨some (fresh, true), closed, p'.seat i a fresh⟩

theorem exists_free (p : Pool κ) (live : κ → Bool) :
    (∃ i, p.slots.findIdx? (isFree live) = some i ∧ i < p.size ∧
      ∀ k, p.slot? i = some k → live k = false) ∨
    (p.slots.findIdx? (isFree live) = none ∧
      ∀ i < p.size, ∃ k, p.slot? i = some k ∧ live k = true) := by
  cases hf : p.slots.findIdx? (isFree live) with
  | some i =>
    obtain ⟨hi, hfree, _⟩ := Array.findIdx?_eq_some_iff_getElem.mp hf
    rw [← slot?_eq hi, isFree_iff] at hfree
    exact Or.inl ⟨i, rfl, hi, hfree⟩
  | none =>
    refine Or.inr ⟨rfl, fun i hi => ?_⟩
    have hbusy := Array.findIdx?_eq_none_iff.mp hf _ (Array.getElem_mem hi)
    rw [← slot?_eq hi, Bool.eq_false_iff, ne_eq, isFree_iff] at hbusy
    push Not at hbusy
    simpa using hbusy

theorem attempts_assign {live : κ → Bool} {a : SocketAddr} {fresh : κ}
    (hunmapped : p.slotOf? a = none) : Attempts p live a fresh (p.assign live a fresh) := by
  unfold assign
  rcases p.exists_free live with ⟨i, hf, hi, hdead⟩ | ⟨hf, hbusy⟩
  · rw [hf]
    dsimp only
    refine .placed [i] i _ _ (p.empties_release i) (List.mem_singleton_self i) hi ?_ ?_
    · intro j hj
      rw [List.mem_singleton.mp hj]
      exact hdead
    · simp [hunmapped]
  · rw [hf]
    exact .full hunmapped hbusy

theorem Sound.attempts (h : p.Sound peer) (live : κ → Bool) (a : SocketAddr) (fresh : κ) :
    Attempts p live a fresh (p.attempt live a fresh) := by
  unfold attempt
  cases hm : p.slotOf? a with
  | none => exact attempts_assign hm
  | some i =>
    obtain ⟨k, hk, _⟩ := (h.mapped a i).mp hm
    dsimp only
    rw [hk, Option.filter_some]
    cases hlive : live k with
    | true => exact .held i k hm hk hlive
    | false =>
      have he := p.empties_release i
      have hi : i < (p.release i).1.size := he.size ▸ lt_size hk
      have hempty : (p.release i).1.slot? i = none := by simp [he.slots]
      simp only [Bool.false_eq_true, ↓reduceIte]
      -- the slot that was emptied is free, so that there is one to take
      rcases (p.release i).1.exists_free live with ⟨j, hf, hj, hdead⟩ | ⟨hf, hbusy⟩
      · unfold assign
        rw [hf]
        dsimp only
        refine .placed [i, j] j _ _ (he.append ((p.release i).1.empties_release j)) (by simp)
          (he.size ▸ hj) ?_ (by simp [hm])
        intro l hl m hlm
        by_cases hli : l = i
        · rw [hli, hk] at hlm
          cases hlm
          exact hlive
        · have hlj : l = j := by simpa [hli] using hl
          subst hlj
          exact hdead m (by simp [he.slots, hli, hlm])
      · obtain ⟨l, hl, _⟩ := hbusy i hi
        rw [hempty] at hl
        cases hl

end

end Courier.Stream.Pool
