import Courier.Proofs.Reassembly.Table

/-!
Any calls of the table: purges, and chunks from anywhere with any header. Main statement:
as long as there is room for all, messages do not influence each other. The chunks of one
message have the outcomes that they would have if no others had come.
-/

namespace Courier.Reassembly

inductive Call where
  | arrive (sender : SocketAddr) (header : Chunk.Header) (payload : Bytes) (now : Instant)
  | purge (now : Instant) (timeout retention : Duration)

/-- What a chunk from the wire promises. -/
def Call.Valid : Call → Prop
  | .arrive _ header _ _ => header.Valid
  | .purge .. => True

/-- The message that a call is about; a purge is about all. -/
def Call.key? : Call → Option Key
  | .arrive sender header _ _ => some (sender, header.sequence)
  | .purge .. => none

/-- The table after a call. -/
def after (r : Reassembly) : Call → Reassembly
  | .arrive sender header payload now => (r.insert sender header payload now).2
  | .purge now timeout retention => (r.purge now timeout retention).2

/-- The table after calls, from an empty one. -/
def afterAll (chunkSize maxPartialBytes : Nat) (calls : List Call) : Reassembly :=
  calls.foldl after { chunkSize, maxPartialBytes }

theorem afterAll_append (cs limit : Nat) (calls calls' : List Call) :
    afterAll cs limit (calls ++ calls') = calls'.foldl after (afterAll cs limit calls) :=
  List.foldl_append

/-- The outcomes of all chunks, in order, with the keys of their messages. There are none if a
call ends beyond the range of the machine. -/
def outcomes? (r : Reassembly) : List Call → Option (List (Key × Outcome))
  | [] => some []
  | .arrive sender header payload now :: calls =>
    let (outcome, r) := r.insert sender header payload now
    if outcome = .outOfRange then none
    else (outcomes? r calls).map (((sender, header.sequence), outcome) :: ·)
  | .purge now timeout retention :: calls => outcomes? (r.purge now timeout retention).2 calls

/-! ## One chunk -/

variable {r r' alone : Reassembly} {key : Key} {h : Chunk.Header} {payload : Bytes} {now : Instant}

/-- The table after a chunk, as its outcome says. -/
theorem insert_snd (r : Reassembly) (sender : SocketAddr) (h : Chunk.Header) (payload : Bytes)
    (now : Instant) : (r.insert sender h payload now).2 =
    match (r.insert sender h payload now).1 with
    | .incomplete => r.keep (sender, h.sequence) h payload now
    | .complete _ => r.finish (sender, h.sequence) h payload now
    | _ => r := by
  rcases inserts_or_outOfRange r sender h payload now with hi | heq
  · generalize r.insert sender h payload now = result at hi
    obtain ⟨outcome, r'⟩ := result
    cases hi <;> rfl
  · rw [heq]

/-- A chunk concerns no other message. -/
theorem insert_other (r : Reassembly) (sender : SocketAddr) (h : Chunk.Header) (payload : Bytes)
    (now : Instant) {k : Key} (hk : k ≠ (sender, h.sequence)) :
    (r.insert sender h payload now).2.find? k = r.find? k ∧
      (r.insert sender h payload now).2.completed.lookup k = r.completed.lookup k := by
  rcases inserts_or_outOfRange r sender h payload now with hi | heq
  · exact hi.other hk
  · rw [heq]
    exact ⟨rfl, rfl⟩

theorem insert_fields (r : Reassembly) (sender : SocketAddr) (h : Chunk.Header) (payload : Bytes)
    (now : Instant) : (r.insert sender h payload now).2.chunkSize = r.chunkSize ∧
      (r.insert sender h payload now).2.maxPartialBytes = r.maxPartialBytes := by
  rcases inserts_or_outOfRange r sender h payload now with hi | heq
  · exact hi.fields
  · rw [heq]
    exact ⟨rfl, rfl⟩

theorem Tallied.after (hr : r.Tallied) (c : Call) : (r.after c).Tallied := by
  cases c with
  | arrive sender h payload now => exact hr.insert sender h payload now
  | purge now timeout retention => exact hr.purge now timeout retention

theorem Sound.after (hr : r.Sound) {c : Call} (hv : c.Valid) : (r.after c).Sound := by
  cases c with
  | arrive sender h payload now => exact hr.inserts hv (inserts_insert r sender hv payload now)
  | purge now timeout retention => exact hr.purge now timeout retention

theorem after_fields (r : Reassembly) (c : Call) :
    (r.after c).chunkSize = r.chunkSize ∧ (r.after c).maxPartialBytes = r.maxPartialBytes := by
  cases c with
  | arrive sender h payload now => exact insert_fields r sender h payload now
  | purge now timeout retention => exact ⟨rfl, rfl⟩

/-- Chunks from the wire leave the table in order, and its settings as they are. -/
theorem sound_afterAll (cs limit : Nat) {calls : List Call} (hv : ∀ call ∈ calls, call.Valid) :
    (afterAll cs limit calls).Sound ∧ (afterAll cs limit calls).chunkSize = cs ∧
      (afterAll cs limit calls).maxPartialBytes = limit := by
  induction calls using List.reverseRecOn with
  | nil => exact ⟨sound_empty _ _, rfl, rfl⟩
  | append_singleton calls call ih =>
    obtain ⟨hbefore, hlast⟩ := List.forall_mem_append.mp hv
    obtain ⟨hsound, hsize, hlimit⟩ := ih hbefore
    obtain ⟨hsize', hlimit'⟩ := after_fields (afterAll cs limit calls) call
    rw [afterAll_append]
    exact ⟨hsound.after (hlast _ (List.mem_singleton_self _)), hsize'.trans hsize,
      hlimit'.trans hlimit⟩

/-- Where there was room, there is room in a table with fewer bytes. -/
theorem store_fst_eq (hsize : r'.chunkSize = r.chunkSize)
    (hlimit : r'.maxPartialBytes = r.maxPartialBytes) (hle : r'.buffered ≤ r.buffered)
    {m : Partial} {i : Nat} {isLast : Bool}
    (hroom : (r.store key m i isLast payload now).1 ≠ .rejected .bufferLimit)
    (hrange : (r.store key m i isLast payload now).1 ≠ .outOfRange) :
    (r'.store key m i isLast payload now).1 = (r.store key m i isLast payload now).1 := by
  unfold store at hroom hrange ⊢
  dsimp only at hroom hrange ⊢
  rw [hsize, hlimit]
  by_cases hword : wordMax < i * r.chunkSize + payload.length
  · rw [if_pos hword] at hrange
    exact absurd rfl hrange
  rw [if_neg hword] at hroom hrange
  rw [if_neg hword, if_neg hword]
  split at hrange
  · exact absurd rfl hrange
  rename_i hsum
  rw [if_neg hsum] at hroom
  rw [if_neg hsum, if_neg (by omega)]
  split at hroom
  · exact absurd rfl hroom
  rename_i hfull
  rw [if_neg hfull, if_neg (by omega)]
  split
  · rfl
  · split <;> rfl

/-! ## The message alone -/

/-- A table that knows of one message what another one knows, and nothing of others. -/
structure Alike (key : Key) (r alone : Reassembly) : Prop where
  tallied : r.Tallied
  tallied' : alone.Tallied
  chunkSize : alone.chunkSize = r.chunkSize
  limit : alone.maxPartialBytes = r.maxPartialBytes
  find? : alone.find? key = r.find? key
  completed : alone.completed.lookup key = r.completed.lookup key
  only : ∀ k ≠ key, alone.find? k = none

namespace Alike

theorem buffered_le (ha : Alike key r alone) : alone.buffered ≤ r.buffered := by
  have hothers : alone.messages.filter (·.1 ≠ key) = [] := by
    apply List.filter_eq_nil_iff.mpr
    intro x hx hne
    have hfind : alone.find? x.1 = some x.2 := (lookup_eq_some_iff ha.tallied'.distinct).mpr hx
    rw [ha.only x.1 (by simpa using hne)] at hfind
    cases hfind
  have hlookup : alone.messages.lookup key = r.messages.lookup key := ha.find?
  calc alone.buffered
      = ((r.messages.lookup key).map (·.extent)).getD 0 := by
        rw [ha.tallied'.buffered_eq, total_filter_ne ha.tallied'.distinct key, hothers, hlookup,
          total_nil, Nat.zero_add]
    _ ≤ r.buffered := by
        rw [ha.tallied.buffered_eq, total_filter_ne ha.tallied.distinct key]
        exact Nat.le_add_left _ _

theorem target (ha : Alike key r alone) (h : Chunk.Header) (now : Instant) :
    alone.target key h now = r.target key h now := by
  rw [Reassembly.target, Reassembly.target, ha.find?]

theorem filled (ha : Alike key r alone) (h : Chunk.Header) (payload : Bytes) (now : Instant) :
    alone.filled key h payload now = r.filled key h payload now := by
  rw [Reassembly.filled, Reassembly.filled, ha.target, ha.chunkSize]

/-- A chunk of the message has the same outcome in both tables. -/
theorem outcome_eq {sender : SocketAddr} (ha : Alike (sender, h.sequence) r alone)
    (hroom : (r.insert sender h payload now).1 ≠ .rejected .bufferLimit)
    (hrange : (r.insert sender h payload now).1 ≠ .outOfRange) :
    (alone.insert sender h payload now).1 = (r.insert sender h payload now).1 := by
  have hfault : ∀ isLast n, alone.lengthFault isLast n = r.lengthFault isLast n := by
    intro isLast n
    unfold lengthFault
    rw [ha.chunkSize]
  unfold insert isCompleted at hroom hrange ⊢
  simp only [ha.completed, ha.find?, hfault] at hroom hrange ⊢
  revert hroom hrange
  -- both look at the same things, until it comes to the room in the buffers
  split
  · exact fun _ _ => rfl
  split
  · exact fun _ _ => rfl
  split
  · exact fun _ _ => rfl
  split
  · exact fun _ _ => rfl
  split
  · exact fun _ _ => rfl
  split
  · exact fun _ _ => rfl
  split
  · exact fun _ _ => rfl
  · exact store_fst_eq ha.chunkSize ha.limit ha.buffered_le

/-- Both tables go on alike after a chunk of the message. -/
theorem arrive {sender : SocketAddr} (ha : Alike (sender, h.sequence) r alone)
    (hroom : (r.insert sender h payload now).1 ≠ .rejected .bufferLimit)
    (hrange : (r.insert sender h payload now).1 ≠ .outOfRange) :
    Alike (sender, h.sequence) (r.insert sender h payload now).2
      (alone.insert sender h payload now).2 := by
  have houtcome := ha.outcome_eq hroom hrange
  obtain ⟨hsize, hlimit⟩ := insert_fields r sender h payload now
  obtain ⟨hsize', hlimit'⟩ := insert_fields alone sender h payload now
  have hsnd := insert_snd r sender h payload now
  have hsnd' := insert_snd alone sender h payload now
  rw [houtcome] at hsnd'
  refine ⟨ha.tallied.insert sender h payload now, ha.tallied'.insert sender h payload now,
    hsize'.trans (ha.chunkSize.trans hsize.symm), hlimit'.trans (ha.limit.trans hlimit.symm),
    ?_, ?_, fun k hk => ?_⟩
  · rw [hsnd, hsnd']
    cases (r.insert sender h payload now).1 with
    | incomplete =>
      dsimp only
      rw [find?_keep, find?_keep, if_pos rfl, if_pos rfl, ha.filled]
    | complete =>
      dsimp only
      rw [find?_finish, find?_finish, if_pos rfl, if_pos rfl]
    | _ => exact ha.find?
  · rw [hsnd, hsnd']
    cases (r.insert sender h payload now).1 with
    | complete =>
      dsimp only
      rw [lookup_finish, lookup_finish, if_pos rfl, if_pos rfl]
    | _ => exact ha.completed
  · rw [(insert_other alone sender h payload now hk).1]
    exact ha.only k hk

/-- The chunks of other messages make no difference. -/
theorem arriveOther (ha : Alike key r alone) {sender : SocketAddr} (hk : key ≠ (sender, h.sequence))
    (payload : Bytes) (now : Instant) : Alike key (r.insert sender h payload now).2 alone := by
  obtain ⟨hsize, hlimit⟩ := insert_fields r sender h payload now
  obtain ⟨hfind, hcompleted⟩ := insert_other r sender h payload now hk
  exact ⟨ha.tallied.insert sender h payload now, ha.tallied', ha.chunkSize.trans hsize.symm,
    ha.limit.trans hlimit.symm, ha.find?.trans hfind.symm, ha.completed.trans hcompleted.symm,
    ha.only⟩

theorem purge (ha : Alike key r alone) (now : Instant) (timeout retention : Duration) :
    Alike key (r.purge now timeout retention).2 (alone.purge now timeout retention).2 := by
  refine ⟨ha.tallied.purge now timeout retention, ha.tallied'.purge now timeout retention,
    ha.chunkSize, ha.limit, ?_, ?_, fun k hk => ?_⟩
  · rw [ha.tallied.find?_purge, ha.tallied'.find?_purge, ha.find?]
  · rw [ha.tallied.lookup_purge, ha.tallied'.lookup_purge, ha.completed]
  · rw [ha.tallied'.find?_purge, ha.only k hk]
    rfl

theorem outcomes?_eq (ha : Alike key r alone) {calls : List Call} {outcomes : List (Key × Outcome)}
    (ho : outcomes? r calls = some outcomes)
    (hroom : ∀ x ∈ outcomes, x.2 ≠ .rejected .bufferLimit) :
    outcomes? alone (calls.filter fun c => c.key? = none ∨ c.key? = some key) =
      some (outcomes.filter (·.1 = key)) := by
  induction calls generalizing r alone outcomes with
  | nil =>
    cases ho
    rfl
  | cons c calls ih =>
    cases c with
    | arrive sender h payload now =>
      rw [outcomes?] at ho
      dsimp only at ho
      by_cases hrange : (r.insert sender h payload now).1 = .outOfRange
      · rw [if_pos hrange] at ho
        cases ho
      rw [if_neg hrange] at ho
      obtain ⟨rest, hrest, rfl⟩ := Option.map_eq_some_iff.mp ho
      obtain ⟨hfirst, hlater⟩ := List.forall_mem_cons.mp hroom
      by_cases hk : key = (sender, h.sequence)
      · subst hk
        have houtcome := ha.outcome_eq hfirst hrange
        have hmore := ih (ha.arrive hfirst hrange) hrest hlater
        rw [List.filter_cons_of_pos (by simp [Call.key?]), outcomes?]
        dsimp only
        rw [houtcome, if_neg hrange, hmore, List.filter_cons_of_pos (by simp)]
        rfl
      · rw [List.filter_cons_of_neg (by simp [Call.key?, Ne.symm hk]),
          List.filter_cons_of_neg (by simpa using Ne.symm hk)]
        exact ih (ha.arriveOther hk payload now) hrest hlater
    | purge now timeout retention =>
      rw [List.filter_cons_of_pos (by simp [Call.key?])]
      exact ih (ha.purge now timeout retention) ho hroom

end Alike

theorem alike_empty (chunkSize maxPartialBytes : Nat) (key : Key) :
    Alike key { chunkSize, maxPartialBytes } { chunkSize, maxPartialBytes } where
  tallied := tallied_empty chunkSize maxPartialBytes
  tallied' := tallied_empty chunkSize maxPartialBytes
  chunkSize := rfl
  limit := rfl
  find? := rfl
  completed := rfl
  only _ _ := rfl

/-- If no chunk lacks room, the chunks of a message have the outcomes that they have without
those of all others. -/
theorem outcomes_alone (chunkSize limit : Nat) {calls : List Call}
    {outcomes : List (Key × Outcome)}
    (ho : outcomes? { chunkSize, maxPartialBytes := limit } calls = some outcomes)
    (hroom : ∀ x ∈ outcomes, x.2 ≠ .rejected .bufferLimit) (key : Key) :
    outcomes? { chunkSize, maxPartialBytes := limit }
        (calls.filter fun c => c.key? = none ∨ c.key? = some key) =
      some (outcomes.filter (·.1 = key)) :=
  (alike_empty chunkSize limit key).outcomes?_eq ho hroom

/-- Two peers. -/
def thisPeer : SocketAddr := { ip := .v4 10 0 0 1, port := 4000 }

def otherPeer : SocketAddr := { ip := .v4 10 0 0 2, port := 4000 }

/-- Both send their message 0 in chunks of one byte at the same time. A purge takes what came of
the other one's message, and a copy of a chunk of this one's comes late. -/
def mixed : List Call :=
  [.arrive otherPeer ⟨.data, 0, 2, 0⟩ [7] 0, .arrive thisPeer ⟨.data, 0, 2, 1⟩ [2] 5,
    .purge 10 ⟨10⟩ ⟨10⟩, .arrive thisPeer ⟨.data, 0, 2, 0⟩ [1] 11,
    .arrive otherPeer ⟨.data, 0, 2, 1⟩ [8] 12, .arrive thisPeer ⟨.data, 0, 2, 0⟩ [1] 13]

def mixedOutcomes : List (Key × Outcome) :=
  [((otherPeer, 0), .incomplete), ((thisPeer, 0), .incomplete),
    ((thisPeer, 0), .complete [1, 2]), ((otherPeer, 0), .incomplete), ((thisPeer, 0), .duplicate)]

/-- The message of this peer is put together as if the other one had sent nothing. -/
theorem outcomes_alone_mixed :
    outcomes? { chunkSize := 1, maxPartialBytes := 3 } mixed = some mixedOutcomes ∧
    (∀ x ∈ mixedOutcomes, x.2 ≠ .rejected .bufferLimit) ∧
    outcomes? { chunkSize := 1, maxPartialBytes := 3 }
        (mixed.filter fun c => c.key? = none ∨ c.key? = some (thisPeer, 0)) =
      some [((thisPeer, 0), .incomplete), ((thisPeer, 0), .complete [1, 2]),
        ((thisPeer, 0), .duplicate)] := by
  have ho : outcomes? { chunkSize := 1, maxPartialBytes := 3 } mixed = some mixedOutcomes := by
    decide
  have hroom : ∀ x ∈ mixedOutcomes, x.2 ≠ .rejected .bufferLimit := by decide
  exact ⟨ho, hroom, outcomes_alone 1 3 ho hroom (thisPeer, 0)⟩

end Courier.Reassembly
