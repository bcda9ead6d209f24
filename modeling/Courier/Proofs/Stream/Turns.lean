import Courier.Proofs.Stream.Pool
import Courier.Stream.Inbound

/-!
Whose turn it is. A list read from the cursor on, and round to it again, is the order in
which a poll asks: the slots of a pool, or the connections that peers opened. A poll finds
the first one that has a message and moves it, and all before it, behind the others.
-/

namespace Courier.Stream

/-! ## Once around a list -/

section Lap

variable {α : Type}

/-- A list from a place on, and round to it again. -/
def lap (l : List α) (place : Nat) : List α := l.drop place ++ l.take place

/-- What it comes to if everyone is asked in order until one has something. -/
inductive Scans (hit : α → Bool) (l : List α) : Option α → List α → Prop
  | vain (vain : ∀ a ∈ l, hit a = false) : Scans hit l none l
  | found (early : List α) (a : α) (late : List α) (order : l = early ++ a :: late)
      (vain : ∀ b ∈ early, hit b = false) (has : hit a = true) :
      Scans hit l (some a) (late ++ (early ++ [a]))

variable {l l' : List α} {hit : α → Bool} {place : Nat}

theorem mem_lap {a : α} : a ∈ lap l place ↔ a ∈ l := by
  rw [lap, List.mem_append, or_comm, ← List.mem_append, List.take_append_drop]

theorem length_lap : (lap l place).length = l.length := by
  rw [lap, List.length_append, Nat.add_comm, ← List.length_append, List.take_append_drop]

theorem nodup_lap (h : l.Nodup) : (lap l place).Nodup := by
  rw [lap, List.nodup_append_comm, List.take_append_drop]
  exact h

theorem lap_of_length_le (h : l.length ≤ place) : lap l place = l := by
  rw [lap, List.drop_eq_nil_of_le h, List.take_of_length_le h, List.nil_append]

theorem lap_zero (l : List α) : lap l 0 = l := List.append_nil l

/-- The one at the cursor is asked first, and comes last afterwards. -/
theorem lap_next {a : α} {rest : List α} (hlt : place < l.length) (h : lap l place = a :: rest) :
    l[place]? = some a ∧ lap l (place + 1) = rest ++ [a] := by
  rw [lap, List.drop_eq_getElem_cons hlt, List.cons_append] at h
  obtain ⟨rfl, rfl⟩ := List.cons.inj h
  refine ⟨List.getElem?_eq_getElem hlt, ?_⟩
  rw [lap, List.take_succ_eq_append_getElem hlt, List.append_assoc]

theorem Scans.mem {a : α} (h : Scans hit l (some a) l') : a ∈ l ∧ hit a = true := by
  cases h with
  | found early _ late order _ has =>
    rw [order]
    exact ⟨List.mem_append_right early List.mem_cons_self, has⟩

theorem Scans.of_none (h : Scans hit l none l') : ∀ a ∈ l, hit a = false := by
  cases h with
  | vain vain => exact vain

/-- The one that is found comes after all others. -/
theorem Scans.last {x y : α} (h : Scans hit l (some x) l') (hy : y ∈ l) (hne : y ≠ x) :
    [y, x].Sublist l' := by
  cases h with
  | found early _ late order =>
    rw [← List.append_assoc]
    refine List.Sublist.append (List.singleton_sublist.mpr ?_) (List.Sublist.refl [x])
    rw [order] at hy
    simp only [List.mem_append, List.mem_cons] at hy ⊢
    tauto

/-- Who has something keeps its place before another one, which is not found, until it is
found itself. -/
theorem Scans.ahead {x y : α} {found : Option α} (h : Scans hit l found l') (hd : l.Nodup)
    (hyx : [y, x].Sublist l) (hy : hit y = true) (hsilent : found ≠ some y) :
    [y, x].Sublist l' ∧ found ≠ some x := by
  cases h with
  | vain vain =>
    have hmem : y ∈ l := hyx.subset List.mem_cons_self
    rw [vain y hmem] at hy
    cases hy
  | found early a late order vain has =>
    have hlate : [y, x].Sublist late := by
      rw [order, List.append_cons] at hyx
      refine sublist_of_notMem hyx fun hmem => ?_
      rcases List.mem_append.mp hmem with hmem | hmem
      · rw [vain y hmem] at hy
        cases hy
      · exact hsilent (by rw [List.mem_singleton.mp hmem])
    refine ⟨hlate.trans (List.sublist_append_left _ _), ?_⟩
    rintro ⟨⟩
    have hmem : x ∈ late := hlate.subset (List.mem_cons_of_mem y List.mem_cons_self)
    rw [order, List.nodup_middle] at hd
    exact (List.nodup_cons.mp hd).1 (List.mem_append_right early hmem)

end Lap

/-! ## The connections that peers opened -/

namespace Inbound

variable {κ : Type} {r r' : Inbound κ} {waiting : κ → Bool}

/-- The connections in the order in which they will be asked. -/
def lap (r : Inbound κ) : List κ := Stream.lap r.connections r.cursor

/-- What a poll makes of the list of connections. Unless activity is tracked, everyone is
asked in turn. -/
structure Polls (waiting : κ → Bool) (r : Inbound κ) (found : Option κ) (r' : Inbound κ) :
    Prop where
  connections : r'.connections = r.connections
  served : ∀ k, found = some k → k ∈ r.connections ∧ waiting k = true
  vain : found = none → ∀ k ∈ r.connections, waiting k = false
  turns : r.recent = none → r'.recent = none ∧ Scans waiting r.lap found r'.lap

theorem pollTurn_fields (waiting : κ → Bool) (tries : Nat) (r : Inbound κ) :
    (pollTurn waiting tries r).2.connections = r.connections ∧
      (pollTurn waiting tries r).2.recent = r.recent := by
  induction tries generalizing r with
  | zero => exact ⟨rfl, rfl⟩
  | succ tries ih =>
    unfold pollTurn
    dsimp only
    split
    · exact ⟨rfl, rfl⟩
    · exact ih { r with cursor := _ }

/-- `asked` had nothing, and `rest` is still to be asked. -/
theorem scans_pollTurn (tries : Nat) (asked rest : List κ) (hlap : r.lap = rest ++ asked)
    (htries : rest.length = tries) (hvain : ∀ b ∈ asked, waiting b = false) :
    Scans waiting (asked ++ rest) (pollTurn waiting tries r).1
      (pollTurn waiting tries r).2.lap := by
  induction tries generalizing r asked rest with
  | zero =>
    obtain rfl := List.eq_nil_of_length_eq_zero htries
    rw [List.append_nil, show (pollTurn waiting 0 r).2.lap = asked from hlap]
    exact .vain hvain
  | succ tries ih =>
    obtain ⟨k, rest, rfl⟩ := List.exists_cons_of_length_eq_add_one htries
    rw [List.cons_append] at hlap
    have hlen : (k :: (rest ++ asked)).length = r.connections.length := hlap ▸ length_lap
    have hpos : 0 < r.connections.length := hlen ▸ Nat.zero_lt_succ _
    obtain ⟨place, hplace, hlt, hlap'⟩ : ∃ place,
        (if r.cursor < r.connections.length then r.cursor else 0) = place ∧
          place < r.connections.length ∧ Stream.lap r.connections place = k :: (rest ++ asked) := by
      by_cases hc : r.cursor < r.connections.length
      · exact ⟨r.cursor, if_pos hc, hc, hlap⟩
      · refine ⟨0, if_neg hc, hpos, ?_⟩
        rw [lap_zero, ← hlap, lap, lap_of_length_le (Nat.le_of_not_lt hc)]
    obtain ⟨hget, hnext⟩ := lap_next hlt hlap'
    unfold pollTurn
    dsimp only
    rw [hplace, hget, Option.filter_some]
    cases hk : waiting k with
    | true =>
      rw [if_pos rfl]
      have : Scans waiting (asked ++ k :: rest) (some k) (rest ++ (asked ++ [k])) :=
        .found asked k rest rfl hvain hk
      rwa [← List.append_assoc, ← hnext] at this
    | false =>
      rw [if_neg (Bool.false_ne_true), List.append_cons]
      refine ih (r := { r with cursor := place + 1 }) (asked ++ [k]) rest ?_
        (Nat.succ.inj htries) ?_
      · exact hnext.trans (List.append_assoc _ _ _)
      · intro b hb
        rcases List.mem_append.mp hb with hb | hb
        · exact hvain b hb
        · rw [List.mem_singleton.mp hb, hk]

theorem polls_pollTurn (waiting : κ → Bool) (r : Inbound κ) :
    Polls waiting r (pollTurn waiting r.connections.length r).1
      (pollTurn waiting r.connections.length r).2 := by
  obtain ⟨hconnections, hrecent⟩ := pollTurn_fields waiting r.connections.length r
  have hscans : Scans waiting ([] ++ r.lap) (pollTurn waiting r.connections.length r).1
      (pollTurn waiting r.connections.length r).2.lap :=
    scans_pollTurn _ [] r.lap (List.append_nil _).symm length_lap nofun
  rw [List.nil_append] at hscans
  refine ⟨hconnections, fun k hk => ?_, fun hnone k hk => ?_, fun h => ⟨hrecent.trans h, hscans⟩⟩
  · rw [hk] at hscans
    exact hscans.mem.imp_left mem_lap.mp
  · rw [hnone] at hscans
    exact hscans.of_none k (mem_lap.mpr hk)

theorem pollRecent_some {peer : κ → SocketAddr} {recent : List SocketAddr} {k : κ}
    (h : (r.pollRecent peer waiting recent).1 = some k) :
    k ∈ r.connections ∧ waiting k = true := by
  induction recent with
  | nil => cases h
  | cons addr rest ih =>
    unfold pollRecent at h
    split at h
    · next l hl =>
      cases h
      obtain ⟨hfind, hwaiting⟩ := Option.filter_eq_some_iff.mp hl
      exact ⟨List.mem_of_find?_eq_some hfind, hwaiting⟩
    · exact ih h

theorem polls_poll (peer : κ → SocketAddr) (waiting : κ → Bool) (r : Inbound κ) :
    Polls waiting r (r.poll peer waiting).1 (r.poll peer waiting).2 := by
  unfold poll
  split
  · exact polls_pollTurn waiting r
  · next recent hrecent =>
    have hne : r.recent ≠ none := by
      rw [hrecent]
      nofun
    cases hfound : r.pollRecent peer waiting recent with
    | mk found rest =>
      cases found with
      | some k =>
        refine ⟨rfl, ?_, nofun, fun h => absurd h hne⟩
        rintro _ ⟨⟩
        exact pollRecent_some (congrArg Prod.fst hfound)
      | none =>
        -- what is left of the notes does not matter for the connections
        have h := polls_pollTurn waiting { r with recent := some rest }
        exact ⟨h.connections, h.served, h.vain, fun h => absurd h hne⟩

theorem lap_add (r : Inbound κ) (k : κ) : r.lap.Sublist (r.add k).lap := by
  have hdrop := (List.sublist_append_left r.connections [k]).drop r.cursor
  have htake : (r.connections.take r.cursor).Sublist
      ((r.connections ++ [k]).take r.cursor) := by
    rw [List.take_append]
    exact List.sublist_append_left _ _
  exact hdrop.append htake

/-- A cleanup changes no turns if the connections before the cursor stay. -/
theorem lap_cleanup {live : κ → Bool}
    (hstay : (r.connections.take r.cursor).all fun k => live k || waiting k) :
    (r.cleanup live waiting).lap = r.lap.filter fun k => live k || waiting k := by
  set keep : κ → Bool := fun k => live k || waiting k
  have hearly : (r.connections.take r.cursor).filter keep = r.connections.take r.cursor :=
    List.filter_eq_self.mpr (List.all_eq_true.mp hstay)
  have hsplit : r.connections.filter keep =
      r.connections.take r.cursor ++ (r.connections.drop r.cursor).filter keep := by
    rw [← hearly, ← List.filter_append, List.take_append_drop]
  show Stream.lap (r.connections.filter keep) r.cursor = _
  rw [lap, Stream.lap, Stream.lap, List.filter_append, hearly, hsplit]
  by_cases hc : r.cursor ≤ r.connections.length
  · have hlen : (r.connections.take r.cursor).length = r.cursor := by
      rw [List.length_take, Nat.min_eq_left hc]
    rw [List.drop_left' hlen, List.take_left' hlen]
  · have hall : r.connections.take r.cursor = r.connections := List.take_of_length_le (by omega)
    have hnone : r.connections.drop r.cursor = [] := List.drop_eq_nil_of_le (by omega)
    rw [hnone, List.filter_nil, List.append_nil, hall, hnone, hall]

end Inbound

/-! ## The slots of a pool -/

namespace Pool

variable {κ : Type} {p : Pool κ} {waiting : κ → Bool}

/-- The cursor is at a slot, if there is one. -/
def Placed (p : Pool κ) : Prop := p.cursor < p.size ∨ p.size = 0

/-- The slots in the order in which they will be asked. -/
def lap (p : Pool κ) : List Nat := Stream.lap (List.range p.size) p.cursor

/-- The connections that are polled. -/
def held (p : Pool κ) : List κ := p.released ++ p.connections

/-- The slot holds a connection with a message. -/
def offers (p : Pool κ) (waiting : κ → Bool) (i : Nat) : Bool := (p.slot? i).any waiting

theorem mem_held {k : κ} : k ∈ p.held ↔ k ∈ p.released ∨ ∃ i, p.slot? i = some k := by
  rw [held, List.mem_append, mem_connections]

theorem nodup_lap (p : Pool κ) : p.lap.Nodup := Stream.nodup_lap List.nodup_range

theorem mem_lap {i : Nat} : i ∈ p.lap ↔ i < p.size := Stream.mem_lap.trans List.mem_range

/-- The cursor moves on by one slot, and from the last one to the first. -/
theorem lap_step {i : Nat} {rest : List Nat} (hp : p.Placed) (h : p.lap = i :: rest) :
    i = p.cursor ∧ p.cursor < p.size ∧
      Stream.lap (List.range p.size) ((p.cursor + 1) % p.size) = rest ++ [i] := by
  have hsize : p.size ≠ 0 := fun hzero => by
    have hlen : p.lap.length = p.size := length_lap.trans List.length_range
    rw [h, hzero] at hlen
    cases hlen
  have hlt : p.cursor < p.size := hp.resolve_right hsize
  have hlt' : p.cursor < (List.range p.size).length := by rwa [List.length_range]
  obtain ⟨hget, hnext⟩ := lap_next hlt' h
  rw [List.getElem?_range hlt, Option.some.injEq] at hget
  refine ⟨hget.symm, hlt, ?_⟩
  rcases Nat.lt_or_eq_of_le hlt with hsucc | hsucc
  · rw [Nat.mod_eq_of_lt hsucc, hnext]
  · rw [← hnext, show p.cursor + 1 = p.size from hsucc, Nat.mod_self, lap_zero,
      lap_of_length_le (Nat.le_of_eq List.length_range)]

/-- What a poll of the slots comes to. -/
def ScansSlots (waiting : κ → Bool) (order : List Nat) (p : Pool κ) (polled : Polled κ) :
    Prop :=
  ∃ found cursor, Scans (p.offers waiting) order found (Stream.lap (List.range p.size) cursor) ∧
    polled.yielding = found.bind p.slot? ∧ polled.pool = { p with cursor } ∧
    (cursor < p.size ∨ p.size = 0)

theorem scans_pollSlots (waiting : κ → Bool) (tries : Nat) (asked' : List κ) (hp : p.Placed)
    {asked rest : List Nat} (hlap : p.lap = rest ++ asked) (htries : rest.length = tries)
    (hvain : ∀ i ∈ asked, p.offers waiting i = false) :
    ScansSlots waiting (asked ++ rest) p (pollSlots waiting tries p asked') := by
  induction tries generalizing p asked' asked rest with
  | zero =>
    obtain rfl := List.eq_nil_of_length_eq_zero htries
    refine ⟨none, p.cursor, ?_, rfl, rfl, hp⟩
    rw [List.append_nil, show Stream.lap (List.range p.size) p.cursor = asked from hlap]
    exact .vain hvain
  | succ tries ih =>
    obtain ⟨i, rest, rfl⟩ := List.exists_cons_of_length_eq_add_one htries
    rw [List.cons_append] at hlap
    obtain ⟨rfl, hlt, hnext⟩ := lap_step hp hlap
    have hplaced : (p.cursor + 1) % p.size < p.size := Nat.mod_lt _ (Nat.zero_lt_of_lt hlt)
    have hmoved (hoffers : p.offers waiting p.cursor = false) (asked' : List κ) :
        ScansSlots waiting (asked ++ p.cursor :: rest) p
          (pollSlots waiting tries { p with cursor := (p.cursor + 1) % p.size } asked') := by
      rw [List.append_cons]
      refine ih (p := { p with cursor := (p.cursor + 1) % p.size }) asked' (.inl hplaced)
        (hnext.trans (List.append_assoc _ _ _)) (Nat.succ.inj htries) fun j hj => ?_
      rcases List.mem_append.mp hj with hj | hj
      · exact hvain j hj
      · rw [List.mem_singleton.mp hj]
        exact hoffers
    unfold pollSlots
    dsimp only
    split
    · next hnone => exact hmoved (by rw [offers, hnone]; rfl) _
    · next k hk =>
      have hoffers : p.offers waiting p.cursor = waiting k := by rw [offers, hk]; rfl
      cases hwaiting : waiting k with
      | false => exact hmoved (hoffers.trans hwaiting) _
      | true =>
        rw [if_pos rfl]
        refine ⟨some p.cursor, (p.cursor + 1) % p.size, ?_, hk.symm, rfl, .inl hplaced⟩
        have : Scans (p.offers waiting) (asked ++ p.cursor :: rest) (some p.cursor)
            (rest ++ (asked ++ [p.cursor])) :=
          .found asked p.cursor rest rfl hvain (hoffers.trans hwaiting)
        rwa [← List.append_assoc, ← hnext] at this

/-- Everything that a poll of a pool can come to. -/
inductive Serves (waiting : κ → Bool) (p : Pool κ) : Option κ → Pool κ → Prop
  | released (early : List κ) (k : κ) (late : List κ) (order : p.released = early ++ k :: late)
      (vain : ∀ l ∈ early, waiting l = false) (has : waiting k = true) :
      Serves waiting p (some k) { p with released := k :: late }
  /-- no connection outside the slots has a message, and they are let go of -/
  | slots (place : Option Nat) (cursor : Nat) (found : Option κ)
      (vain : ∀ k ∈ p.released, waiting k = false)
      (scans : Scans (p.offers waiting) p.lap place (Stream.lap (List.range p.size) cursor))
      (seated : found = place.bind p.slot?) (placed : cursor < p.size ∨ p.size = 0) :
      Serves waiting p found { p with released := [], cursor }

theorem serves_poll (waiting : κ → Bool) (hp : p.Placed) :
    Serves waiting p (p.poll waiting).yielding (p.poll waiting).pool := by
  have hvain : ∀ k ∈ p.released.takeWhile (!waiting ·), waiting k = false := fun k hk => by
    simpa using List.all_eq_true.mp List.all_takeWhile k hk
  have happend := List.takeWhile_append_dropWhile (p := (!waiting ·)) (l := p.released)
  unfold poll
  dsimp only
  split
  · next k late hlate =>
    rw [hlate] at happend
    refine .released _ k late happend.symm hvain ?_
    have := List.head?_dropWhile_not (!waiting ·) p.released
    simpa [hlate] using this
  · next hlate =>
    rw [hlate, List.append_nil] at happend
    obtain ⟨place, cursor, hscans, hyielding, hpool, hplaced⟩ :=
      scans_pollSlots (p := { p with released := [] }) waiting p.size
        (p.released.takeWhile (!waiting ·)) hp (List.append_nil _).symm
        (length_lap.trans List.length_range) (by simp)
    rw [hyielding, hpool]
    exact .slots place cursor _ (fun k hk => hvain k (by rwa [happend])) hscans rfl hplaced

section

variable {p' : Pool κ} {found : Option κ}

theorem offers_iff {i : Nat} :
    p.offers waiting i = true ↔ ∃ k, p.slot? i = some k ∧ waiting k = true := by
  rw [offers, Option.any_eq_true]

theorem Serves.slots_eq (h : Serves waiting p found p') : p'.slots = p.slots := by
  cases h <;> rfl

theorem Serves.peers (h : Serves waiting p found p') : p'.slotByPeer = p.slotByPeer := by
  cases h <;> rfl

theorem Serves.placed (h : Serves waiting p found p') (hp : p.Placed) : p'.Placed := by
  cases h with
  | released => exact hp
  | slots _ _ _ _ _ _ placed => exact placed

theorem Serves.slot?_eq (h : Serves waiting p found p') (i : Nat) : p'.slot? i = p.slot? i := by
  rw [slot?, h.slots_eq, slot?]

/-- Only connections outside the slots that have no message are let go of. -/
theorem Serves.kept (h : Serves waiting p found p') {k : κ} (hk : k ∈ p.held) :
    k ∈ p'.held ∨ waiting k = false := by
  simp only [mem_held, h.slot?_eq] at hk ⊢
  rcases hk with hk | hk
  · cases h with
    | released early l late order vain =>
      rw [order] at hk
      exact (List.mem_append.mp hk).symm.imp Or.inl (vain k)
    | slots _ _ _ vain => exact Or.inr (vain k hk)
  · exact Or.inl (Or.inr hk)

theorem Serves.of_released (h : Serves waiting p found p') {k : κ} (hk : k ∈ p'.released) :
    k ∈ p.released := by
  cases h with
  | released early l late order =>
    rw [order]
    exact List.mem_append_right early hk
  | slots => cases hk

theorem Serves.served {k : κ} (h : Serves waiting p (some k) p') :
    k ∈ p.held ∧ waiting k = true := by
  rw [mem_held]
  cases h with
  | released early _ late order vain has =>
    rw [order]
    exact ⟨Or.inl (List.mem_append_right early List.mem_cons_self), has⟩
  | slots place cursor _ vain scans seated =>
    obtain ⟨i, rfl, hi⟩ := Option.bind_eq_some_iff.mp seated.symm
    obtain ⟨l, hl, has⟩ := offers_iff.mp scans.mem.2
    cases hi.symm.trans hl
    exact ⟨Or.inr ⟨i, hi⟩, has⟩

theorem Serves.vain (h : Serves waiting p none p') {k : κ} (hk : k ∈ p.held) :
    waiting k = false := by
  cases h with
  | slots place cursor _ vain scans seated =>
    rcases mem_held.mp hk with hk | ⟨i, hi⟩
    · exact vain k hk
    · cases place with
      | some j =>
        obtain ⟨l, hl, _⟩ := offers_iff.mp scans.mem.2
        cases seated.trans hl
      | none =>
        have hlt : i < p.size := lt_size hi
        have hoffers := scans.of_none i (mem_lap.mpr hlt)
        rwa [offers, hi] at hoffers

end

theorem Empties.of_slot {p' : Pool κ} {places : List Nat} {closed : List κ}
    (he : Empties places p p' closed) {i : Nat} {k : κ} (hk : p'.slot? i = some k) :
    i ∉ places ∧ p.slot? i = some k := by
  rw [he.slots] at hk
  split at hk
  · cases hk
  · exact ⟨‹_›, hk⟩

/-- A connection that leaves its slot is polled on. -/
theorem Empties.mem_held {p' : Pool κ} {places : List Nat} {closed : List κ}
    (he : Empties places p p' closed)
    (hapart : ∀ i j k, p.slot? i = some k → p.slot? j = some k → i = j) (k : κ) :
    k ∈ p'.held ↔ k ∈ p.held := by
  have hclosed := fun hk : k ∈ closed => he.mem_of_closed hk
  have hconnections := he.mem_connections hapart k
  simp only [held, he.released, List.mem_append, hconnections]
  tauto

theorem mem_held_seat {i : Nat} (hi : i < p.size) (hempty : p.slot? i = none) (a : SocketAddr)
    (k l : κ) : l ∈ (p.seat i a k).held ↔ l = k ∨ l ∈ p.held := by
  have hreleased : (p.seat i a k).released = p.released := rfl
  simp only [held, List.mem_append, mem_connections_seat hi hempty, hreleased]
  tauto

/-! ## The cursor -/

theorem cursor_release (p : Pool κ) (i : Nat) : (p.release i).1.cursor = p.cursor := by
  unfold release
  dsimp only
  split <;> rfl

theorem cursor_releaseAll (p : Pool κ) (places : List Nat) :
    (p.releaseAll places).1.cursor = p.cursor := by
  induction places using List.reverseRecOn with
  | nil => rfl
  | append_singleton places i ih => rw [releaseAll_append, cursor_release, ih]

theorem cursor_assign (p : Pool κ) (live : κ → Bool) (a : SocketAddr) (fresh : κ) :
    (p.assign live a fresh).pool.cursor = p.cursor := by
  unfold assign
  split
  · rfl
  · exact p.cursor_release _

theorem cursor_attempt (p : Pool κ) (live : κ → Bool) (a : SocketAddr) (fresh : κ) :
    (p.attempt live a fresh).pool.cursor = p.cursor := by
  unfold attempt
  split
  · exact p.cursor_assign live a fresh
  · next i _ =>
    split
    · rfl
    · exact ((p.release i).1.cursor_assign live a fresh).trans (p.cursor_release i)

end Pool

end Courier.Stream
