import Courier.Proofs.Outbound.Chunks
import Courier.Proofs.Outbound.Turns

/-!
The whole history of a queue: its operations in any order and with any arguments. A log
tells what each of them did, newest first, and the invariant `Sound` ties what the queue
keeps about a message to what the log tells about it.
-/

namespace Courier.Outbound

/-- What an onlooker sees. -/
inductive History.Fact where
  | registered (sequence : UInt64) (dest : SocketAddr) (data : Bytes) (reliable : Bool)
  /-- a chunk was picked for the wire -/
  | emitted (chunk : Outgoing)
  /-- a chunk of the message was handed to the socket -/
  | written (sequence : UInt64)
  /-- an acknowledgement arrived, with or without progress -/
  | acknowledged (ack : Chunk.Header) (progress : Bool)
  | ticked (outcome : Tick)
  | dropped (dest : SocketAddr)

structure History where
  queue : Queue
  log : List History.Fact := []

namespace History

inductive Event where
  | register (dest : SocketAddr) (data : Bytes) (reliable : Bool)
  | next
  | markWritten (sequence : UInt64)
  | acknowledge (ack : Chunk.Header)
  | tick (tickThreshold threshold : Nat)
  | dropTo (dest : SocketAddr)

def step (h : History) : Event → History
  | .register dest data reliable =>
    match h.queue.register dest data reliable with
    | .error _ => h
    | .ok (n, queue) => ⟨queue, .registered n dest data reliable :: h.log⟩
  | .next =>
    let (chunk, queue) := h.queue.next
    ⟨queue, chunk.toList.map .emitted ++ h.log⟩
  | .markWritten n => ⟨h.queue.markWritten n, .written n :: h.log⟩
  | .acknowledge ack =>
    let (progress, queue) := h.queue.acknowledge ack
    ⟨queue, .acknowledged ack progress :: h.log⟩
  | .tick tickThreshold threshold =>
    let (outcome, queue) := h.queue.tick tickThreshold threshold
    ⟨queue, .ticked outcome :: h.log⟩
  | .dropTo dest => ⟨(h.queue.dropTo dest).2, .dropped dest :: h.log⟩

def run (chunkSize maxFlight : Nat) (events : List Event) : History :=
  events.foldl step { queue := { chunkSize, maxFlight } }

theorem run_append (cs W : Nat) (events : List Event) (e : Event) :
    run cs W (events ++ [e]) = step (run cs W events) e := by
  simp [run]

section Register

variable {h : History} {dest : SocketAddr} {data : Bytes} {reliable : Bool}

/-- A message that is refused leaves no trace. -/
theorem step_of_error {e : SendError} (hr : h.queue.register dest data reliable = .error e) :
    step h (.register dest data reliable) = h := by
  rw [step, hr]

theorem step_of_ok {n : UInt64} {q : Queue}
    (hr : h.queue.register dest data reliable = .ok (n, q)) :
    step h (.register dest data reliable) = ⟨q, .registered n dest data reliable :: h.log⟩ := by
  rw [step, hr]

end Register

/-! ## Reading the log -/

def Fact.given? : Fact → Option UInt64
  | .registered n _ _ _ => some n
  | _ => none

/-- The chunk of a message that goes out for the first time. -/
def Fact.sent? (n : UInt64) : Fact → Option Nat
  | .emitted o =>
    if o.header.sequence = n ∧ o.resent = false then some o.header.index.toNat else none
  | _ => none

/-- The chunk of a message whose acknowledgement makes progress. -/
def Fact.acked? (n : UInt64) : Fact → Option Nat
  | .acknowledged ack progress =>
    if progress = true ∧ ack.sequence = n then some ack.index.toNat else none
  | _ => none

/-- A chunk that is handed to the socket without its being on the way does not count. -/
def Fact.unwritten (n : UInt64) : Fact → Nat → Nat
  | .emitted o, k => if o.header.sequence = n then k + 1 else k
  | .written s, k => if s = n then k - 1 else k
  | _, k => k

def Fact.waited (n : UInt64) : Fact → Nat → Nat
  | .registered s _ _ _, k => if s = n then 0 else k
  | .acknowledged ack progress, k => if progress = true ∧ ack.sequence = n then 0 else k
  | .ticked _, k => k + 1
  | _, k => k

def Fact.age (n : UInt64) : Fact → Nat → Nat
  | .registered s _ _ _, k => if s = n then 0 else k
  | .ticked _, k => k + 1
  | _, k => k

def Fact.abandoned : Fact → List UInt64
  | .ticked outcome => outcome.abandoned
  | _ => []

/-- The numbers that were given, newest first. -/
def given (log : List Fact) : List UInt64 := log.filterMap Fact.given?

/-- The chunks of a message that were sent, newest first. -/
def sent (n : UInt64) (log : List Fact) : List Nat := log.filterMap (Fact.sent? n)

/-- The chunks of a message that were acknowledged, newest first. -/
def acked (n : UInt64) (log : List Fact) : List Nat := log.filterMap (Fact.acked? n)

/-- How many chunks of a message are on their way to the socket. -/
def unwritten (n : UInt64) (log : List Fact) : Nat := log.foldr (Fact.unwritten n) 0

/-- The ticks since a message was registered or last made progress. -/
def waited (n : UInt64) (log : List Fact) : Nat := log.foldr (Fact.waited n) 0

/-- The ticks since a message was registered. -/
def age (n : UInt64) (log : List Fact) : Nat := log.foldr (Fact.age n) 0

/-- The messages that were given up. -/
def abandoned (log : List Fact) : List UInt64 := log.flatMap Fact.abandoned

/-- The fact tells that the message is known. -/
def Fact.Names (n : UInt64) : Fact → Prop
  | .registered s _ _ _ => s = n
  | .emitted o => o.header.sequence = n
  | .acknowledged ack progress => progress = true ∧ ack.sequence = n
  | .ticked outcome => n ∈ outcome.abandoned
  | .written _ | .dropped _ => False

/-! ## What the log tells about one message -/

/-- The bookkeeping of a message agrees with the log. -/
structure Told (cs : Nat) (n : UInt64) (m : Message) (log : List Fact) : Prop where
  origin : ∃ data, .registered n m.dest data m.reliable ∈ log ∧ m.CutFrom cs data
  sent_eq : sent n log = (List.range m.firstUnsent).reverse
  mem_acked : ∀ i, i ∈ m.acked ↔ i ∈ acked n log
  queued_eq : m.queued = unwritten n log
  stalledTicks_eq : m.reliable = true → m.stalledTicks = waited n log

/-- The fact leaves the bookkeeping of the message alone. -/
structure Fact.Silent (n : UInt64) (f : Fact) : Prop where
  sent : f.sent? n = none
  acked : f.acked? n = none
  unwritten : ∀ k, f.unwritten n k = k
  waited : ∀ k, f.waited n k = k

theorem silent_registered {n s : UInt64} (h : s ≠ n) (dest : SocketAddr) (data : Bytes)
    (reliable : Bool) : Fact.Silent n (.registered s dest data reliable) :=
  ⟨rfl, rfl, fun _ => rfl, fun _ => if_neg h⟩

theorem silent_emitted {n : UInt64} {o : Outgoing} (h : o.header.sequence ≠ n) :
    Fact.Silent n (.emitted o) :=
  ⟨if_neg fun hc => h hc.1, rfl, fun _ => if_neg h, fun _ => rfl⟩

theorem silent_written {n s : UInt64} (h : s ≠ n) : Fact.Silent n (.written s) :=
  ⟨rfl, rfl, fun _ => if_neg h, fun _ => rfl⟩

theorem silent_acknowledged {n : UInt64} {ack : Chunk.Header} {progress : Bool}
    (h : progress = true → ack.sequence ≠ n) : Fact.Silent n (.acknowledged ack progress) :=
  ⟨rfl, if_neg fun hc => h hc.1 hc.2, fun _ => rfl, fun _ => if_neg fun hc => h hc.1 hc.2⟩

theorem silent_dropped (n : UInt64) (dest : SocketAddr) : Fact.Silent n (.dropped dest) :=
  ⟨rfl, rfl, fun _ => rfl, fun _ => rfl⟩

section Cons

variable {n : UInt64} {f : Fact} {log : List Fact}

theorem sent_cons : sent n (f :: log) = (f.sent? n).toList ++ sent n log := by
  unfold sent
  cases hf : f.sent? n <;> simp [hf]

theorem acked_cons : acked n (f :: log) = (f.acked? n).toList ++ acked n log := by
  unfold acked
  cases hf : f.acked? n <;> simp [hf]

theorem unwritten_cons : unwritten n (f :: log) = f.unwritten n (unwritten n log) := rfl

theorem waited_cons : waited n (f :: log) = f.waited n (waited n log) := rfl

theorem age_cons : age n (f :: log) = f.age n (age n log) := rfl

end Cons

namespace Told

variable {cs W : Nat} {n : UInt64} {m m' : Message} {log : List Fact}

theorem origin_mono (h : Told cs n m log) (hk : Message.Kin m m') {log' : List Fact}
    (hl : log ⊆ log') :
    ∃ data, .registered n m'.dest data m'.reliable ∈ log' ∧ m'.CutFrom cs data := by
  obtain ⟨data, hreg, hcut⟩ := h.origin
  rw [hk.dest, hk.reliable]
  exact ⟨data, hl hreg, hcut.kin hk⟩

theorem origin_cons (h : Told cs n m log) (hk : Message.Kin m m') (f : Fact) :
    ∃ data, .registered n m'.dest data m'.reliable ∈ f :: log ∧ m'.CutFrom cs data :=
  h.origin_mono hk (List.subset_cons_self f log)

theorem silent (h : Told cs n m log) {f : Fact} (hf : f.Silent n) : Told cs n m (f :: log) where
  origin := h.origin_cons (.refl m) f
  sent_eq := by rw [sent_cons, hf.sent, h.sent_eq]; rfl
  mem_acked := by rw [acked_cons, hf.acked]; exact h.mem_acked
  queued_eq := by rw [unwritten_cons, hf.unwritten, h.queued_eq]
  stalledTicks_eq := fun hr => by rw [waited_cons, hf.waited, h.stalledTicks_eq hr]

/-- A message that is asked in vain. -/
theorem idle (h : Told cs n m log) (he : Message.Emits W m none m') : Told cs n m' log := by
  have ho := h.origin_mono he.kin (List.Subset.refl log)
  cases he with
  | idle => exact ⟨ho, h.sent_eq, h.mem_acked, h.queued_eq, h.stalledTicks_eq⟩

theorem emitted (h : Told cs n m log) (hs : m.Sound W) {o : Outgoing}
    (he : Message.Emits W m (some o) m') (ho : o.header.sequence = n) :
    Told cs n m' (.emitted o :: log) := by
  obtain ⟨data, _, hcut⟩ := h.origin
  refine ⟨h.origin_cons he.kin _, ?_, ?_, ?_, ?_⟩
  · rw [sent_cons, h.sent_eq]
    cases he with
    | again => simp [Fact.sent?, Message.chunk]
    | fresh lost unsent =>
      have hlt : m.firstUnsent < m.total := Nat.lt_of_le_of_ne hs.firstUnsent_le unsent
      have hindex : (m.chunk m.firstUnsent false).header.index.toNat = m.firstUnsent :=
        hcut.toNat_index hlt
      rw [Fact.sent?, if_pos ⟨ho, rfl⟩, hindex, List.range_succ, List.reverse_append]
      rfl
  · rw [acked_cons, he.grows.2]
    exact h.mem_acked
  · rw [unwritten_cons, Fact.unwritten, if_pos ho, he.counts, h.queued_eq]
    rfl
  · intro hr
    rw [he.stalledTicks_eq]
    exact h.stalledTicks_eq (he.kin.reliable ▸ hr)

theorem written (h : Told cs n m log) : Told cs n m.markWritten (.written n :: log) where
  origin := h.origin_cons (show Message.Kin m m.markWritten from ⟨rfl, rfl, rfl, rfl⟩) _
  sent_eq := h.sent_eq
  mem_acked := h.mem_acked
  queued_eq := by
    rw [unwritten_cons, Fact.unwritten, if_pos rfl, ← h.queued_eq]
    rfl
  stalledTicks_eq := h.stalledTicks_eq

theorem acknowledged (h : Told cs n m log) {ack : Chunk.Header} (hn : ack.sequence = n)
    (ha : m.acknowledge? ack.total ack.index.toNat = some m') :
    Told cs n m' (.acknowledged ack true :: log) := by
  have hk := Message.kin_of_acknowledge? ha
  refine ⟨h.origin_cons hk _, ?_, ?_, ?_, ?_⟩
  all_goals obtain ⟨_, rfl⟩ := Message.acknowledge?_eq_some_iff.mp ha
  · exact h.sent_eq
  · intro i
    rw [acked_cons, Fact.acked?, if_pos ⟨rfl, hn⟩, Option.toList_some, List.singleton_append,
      List.mem_cons, Std.TreeSet.mem_insert, Std.compare_eq_iff_eq, ← h.mem_acked, eq_comm]
  · exact h.queued_eq
  · intro _
    rw [waited_cons, Fact.waited, if_pos ⟨rfl, hn⟩]

theorem ticked (h : Told cs n m log) {a b : Nat} {t : Tick}
    (ht : Message.Ticks W a b m false m' t) (outcome : Tick) :
    Told cs n m' (.ticked outcome :: log) := by
  refine ⟨h.origin_cons ht.kin _, ?_, ?_, ?_, ?_⟩
  · rw [ht.same.1]
    exact h.sent_eq
  · rw [ht.same.2]
    exact h.mem_acked
  · cases ht <;> exact h.queued_eq
  · intro hr
    rw [waited_cons, Fact.waited, ← h.stalledTicks_eq (ht.kin.reliable ▸ hr)]
    cases ht with
    | unfinished kind => exact absurd (kind.symm.trans hr) (by simp)
    | again | waits => rfl

end Told

/-! ## The invariant -/

structure Sound (cs W : Nat) (h : History) : Prop where
  queue : h.queue.Sound
  placed : h.queue.Placed
  size : h.queue.chunkSize = cs
  flight : h.queue.maxFlight = W
  /-- numbers are given one after the other -/
  given_eq : (given h.log).map (·.toNat) = (List.range h.queue.nextNumber.toNat).reverse
  named : ∀ f ∈ h.log, ∀ n, f.Names n → n.toNat < h.queue.nextNumber.toNat
  told : ∀ n m, h.queue.find? n = some m → Told cs n m h.log

theorem sound_init (cs W : Nat) : Sound cs W { queue := { chunkSize := cs, maxFlight := W } } where
  queue := ⟨List.nodup_nil, by simp, by simp⟩
  placed := Or.inl rfl
  size := rfl
  flight := rfl
  given_eq := rfl
  named := by simp
  told := by simp [Queue.find?]

section Steps

variable {cs W : Nat} {h : History} {q : Queue} {f : Fact}

/-- A step that gives no number. -/
theorem Sound.cons (hs : Sound cs W h) (queue : q.Sound) (placed : q.Placed)
    (fields : q.chunkSize = h.queue.chunkSize ∧ q.maxFlight = h.queue.maxFlight ∧
      q.nextNumber = h.queue.nextNumber)
    (hgiven : f.given? = none) (hnamed : ∀ n, f.Names n → ∃ m, h.queue.find? n = some m)
    (told : ∀ n m, q.find? n = some m → Told cs n m (f :: h.log)) : Sound cs W ⟨q, f :: h.log⟩ where
  queue := queue
  placed := placed
  size := fields.1.trans hs.size
  flight := fields.2.1.trans hs.flight
  given_eq := by
    rw [given, List.filterMap_cons_none hgiven, fields.2.2]
    exact hs.given_eq
  named := fun g hg n hn => by
    rw [fields.2.2]
    rcases List.mem_cons.mp hg with rfl | hg
    · obtain ⟨m, hm⟩ := hnamed n hn
      exact hs.queue.lt_next hm
    · exact hs.named g hg n hn
  told := told

/-- The log tells nothing about a number that was not given. -/
theorem Sound.not_names (hs : Sound cs W h) {n : UInt64}
    (hn : ¬ n.toNat < h.queue.nextNumber.toNat) : ∀ f ∈ h.log, ¬ f.Names n :=
  fun f hf hc => hn (hs.named f hf n hc)

theorem sent_eq_nil {n : UInt64} {log : List Fact} (h : ∀ f ∈ log, ¬ f.Names n) :
    sent n log = [] := by
  refine List.filterMap_eq_nil_iff.mpr fun f hf => ?_
  cases f with
  | emitted o => exact if_neg fun hc => h _ hf hc.1
  | _ => rfl

theorem acked_eq_nil {n : UInt64} {log : List Fact} (h : ∀ f ∈ log, ¬ f.Names n) :
    acked n log = [] := by
  refine List.filterMap_eq_nil_iff.mpr fun f hf => ?_
  cases f with
  | acknowledged ack progress => exact if_neg (h _ hf)
  | _ => rfl

theorem unwritten_eq_zero {n : UInt64} {log : List Fact} (h : ∀ f ∈ log, ¬ f.Names n) :
    unwritten n log = 0 := by
  induction log with
  | nil => rfl
  | cons f log ih =>
    rw [unwritten_cons, ih fun g hg => h g (List.mem_cons_of_mem f hg)]
    cases f with
    | emitted o => exact if_neg (h _ List.mem_cons_self)
    | written s => exact ite_self 0
    | _ => rfl

/-- A message that was just taken in. -/
theorem Sound.told_registered (hs : Sound cs W h) {dest : SocketAddr} {data : Bytes}
    {reliable : Bool} {n : UInt64} (hr : h.queue.register dest data reliable = .ok (n, q))
    {pieces : Array Bytes} (hsplit : Chunk.split? data h.queue.chunkSize = some pieces) :
    Told cs n { sequence := n, dest, reliable, pieces }
      (.registered n dest data reliable :: h.log) := by
  have hnew := hs.not_names (n := n)
    (by rw [(Queue.register_fields hr).1]; exact Nat.lt_irrefl _)
  refine ⟨⟨data, List.mem_cons_self, hs.size ▸ .of_register hr hsplit⟩, ?_, ?_, ?_, ?_⟩
  · rw [sent_cons, sent_eq_nil hnew]
    rfl
  · rw [acked_cons, acked_eq_nil hnew]
    simp [Fact.acked?]
  · rw [unwritten_cons, unwritten_eq_zero hnew]
    rfl
  · intro _
    rw [waited_cons, Fact.waited, if_pos rfl]

theorem Sound.registered (hs : Sound cs W h) {dest : SocketAddr} {data : Bytes}
    {reliable : Bool} {n : UInt64} (hr : h.queue.register dest data reliable = .ok (n, q)) :
    Sound cs W ⟨q, .registered n dest data reliable :: h.log⟩ := by
  obtain ⟨rfl, hnext, hsize, hflight⟩ := Queue.register_fields hr
  refine ⟨hs.queue.register hr, hs.placed.register hr, hsize.trans hs.size,
    hflight.trans hs.flight, ?_, ?_, ?_⟩
  · show (h.queue.nextNumber :: given h.log).map (·.toNat) = _
    rw [hnext, List.map_cons, hs.given_eq, List.range_succ, List.reverse_append]
    rfl
  · intro f hf n hn
    dsimp only
    rw [hnext]
    rcases List.mem_cons.mp hf with rfl | hf
    · rw [← show h.queue.nextNumber = n from hn]
      exact Nat.lt_succ_self _
    · exact Nat.lt_succ_of_lt (hs.named f hf n hn)
  · intro n m hm
    rcases Queue.message_of_register hs.queue hr hm with ⟨rfl, pieces, hsplit, rfl⟩ | ⟨hne, hold⟩
    · exact hs.told_registered hr hsplit
    · exact (hs.told n m hold).silent (silent_registered (Ne.symm hne) _ _ _)

theorem Sound.next (hs : Sound cs W h) : Sound cs W (step h .next) := by
  have hsound := hs.queue.next
  have hplaced := (hs.placed.next hs.queue).1
  obtain ⟨hsize, hflight, hnext⟩ := Queue.next_fields h.queue
  have hasked := fun n m (hm : h.queue.next.2.find? n = some m) =>
    Queue.message_of_next hs.queue hm
  have hown := fun o ho => Queue.emits_of_next hs.queue (o := o) ho
  unfold step
  generalize h.queue.next = result at *
  obtain ⟨out, q⟩ := result
  dsimp only at *
  cases out with
  | none =>
    -- nothing was found, and the log stays
    refine ⟨hsound, hplaced, hsize.trans hs.size, hflight.trans hs.flight, ?_, ?_, ?_⟩
    · rw [hnext]
      exact hs.given_eq
    · rw [hnext]
      exact hs.named
    · intro n m' hm'
      obtain ⟨m, hm, ⟨rfl, _⟩ | he⟩ := hasked n m' hm'
      · exact hs.told n m' hm
      · exact (hs.told n m hm).idle he
  | some o =>
    refine hs.cons hsound hplaced ⟨hsize, hflight, hnext⟩ rfl ?_ ?_
    · rintro n rfl
      obtain ⟨m, _, hm, _⟩ := hown o rfl
      exact ⟨m, hm⟩
    · intro n m' hm'
      obtain ⟨m, hm, ha⟩ := hasked n m' hm'
      have hn := Queue.Sound.sequence hm
      have htold := hs.told n m hm
      by_cases ho : o.header.sequence = n
      · rcases ha with ⟨_, hnone⟩ | he
        · simp [hn, ho] at hnone
        · rw [Option.filter_some, if_pos (by simp [hn, ho])] at he
          exact htold.emitted (hs.queue.message hm) he ho
      · have hquiet : Told cs n m' h.log := by
          rcases ha with ⟨rfl, _⟩ | he
          · exact htold
          · rw [Option.filter_some, if_neg (by simp [hn, ho])] at he
            exact htold.idle he
        exact hquiet.silent (silent_emitted ho)

theorem Sound.markWritten (hs : Sound cs W h) (s : UInt64) :
    Sound cs W (step h (.markWritten s)) := by
  have hkeeps := hs.placed.keeps_update s Message.markWritten fun _ hm => hm
  refine hs.cons (hs.queue.markWritten s) hkeeps.1 ⟨rfl, rfl, rfl⟩ rfl (fun _ hn => hn.elim) ?_
  intro n m' hm'
  obtain ⟨m, hm, rfl⟩ := Queue.message_of_markWritten hm'
  by_cases hn : n = s
  · rw [if_pos hn, ← hn]
    exact (hs.told n m hm).written
  · rw [if_neg hn]
    exact (hs.told n m hm).silent (silent_written (Ne.symm hn))

theorem Sound.acknowledge (hs : Sound cs W h) (ack : Chunk.Header) :
    Sound cs W (step h (.acknowledge ack)) := by
  have hack := Queue.acknowledges_acknowledge h.queue ack
  have hplaced := (hs.placed.keeps_acknowledge hs.queue ack).1
  show Sound cs W ⟨(h.queue.acknowledge ack).2,
    .acknowledged ack (h.queue.acknowledge ack).1 :: h.log⟩
  generalize h.queue.acknowledge ack = result at hack hplaced ⊢
  obtain ⟨progress, q⟩ := result
  dsimp only at hack hplaced ⊢
  obtain ⟨hsound, hfields⟩ := hs.queue.acknowledges hack
  refine hs.cons hsound hplaced hfields rfl ?_ ?_
  · rintro n ⟨rfl, rfl⟩
    cases hack with
    | progress m m' found => exact ⟨m, found⟩
    | settled m m' found => exact ⟨m, found⟩
  · intro n m' hm'
    cases hack with
    | ignored => exact (hs.told n m' hm').silent (silent_acknowledged (by simp))
    | progress m m₁ found taken =>
      rw [Queue.find?_progress found taken] at hm'
      by_cases hn : n = ack.sequence
      · rw [if_pos hn] at hm'
        cases hm'
        exact (hs.told n m (hn ▸ found)).acknowledged hn.symm taken
      · rw [if_neg hn] at hm'
        exact (hs.told n m' hm').silent (silent_acknowledged fun _ => Ne.symm hn)
    | settled m m₁ found taken =>
      rw [Queue.find?_settled hs.queue found taken] at hm'
      by_cases hn : n = ack.sequence
      · simp [hn] at hm'
      · rw [if_neg hn] at hm'
        exact (hs.told n m' hm').silent (silent_acknowledged fun _ => Ne.symm hn)

theorem Sound.tick (hs : Sound cs W h) (a b : Nat) : Sound cs W (step h (.tick a b)) := by
  have hmem := fun n => Queue.mem_abandoned hs.queue (a := a) (b := b) (n := n)
  have hticks := fun n m (hm : (h.queue.tick a b).2.find? n = some m) =>
    Queue.ticks_of_find? hs.queue hm
  have hplaced := (hs.placed.keeps_tick hs.queue a b).1
  have hsound := hs.queue.tick a b
  have hfields := Queue.tick_fields hs.queue.distinct a b
  refine hs.cons hsound hplaced hfields rfl ?_ ?_
  · intro n hn
    obtain ⟨m, hm, _⟩ := (hmem n).mp hn
    exact ⟨m, hm⟩
  · intro n m' hm'
    obtain ⟨m, t, hm, ht⟩ := hticks n m' hm'
    exact (hs.told n m hm).ticked ht _

theorem Sound.dropTo (hs : Sound cs W h) (dest : SocketAddr) :
    Sound cs W (step h (.dropTo dest)) := by
  refine hs.cons (hs.queue.dropTo dest) (hs.placed.keeps_remove hs.queue.distinct _).1
    (Queue.dropTo_fields hs.queue.distinct dest) rfl (fun _ hn => hn.elim) ?_
  intro n m hm
  rw [Queue.find?_dropTo hs.queue, Option.filter_eq_some_iff] at hm
  exact (hs.told n m hm.1).silent (silent_dropped n dest)

theorem Sound.nextNumber_le (hs : Sound cs W h) (e : Event) :
    h.queue.nextNumber.toNat ≤ (h.step e).queue.nextNumber.toNat := by
  have heq : ∀ {n : UInt64}, n = h.queue.nextNumber → h.queue.nextNumber.toNat ≤ n.toNat :=
    fun he => he ▸ Nat.le_refl _
  cases e with
  | register dest data reliable =>
    cases hr : h.queue.register dest data reliable with
    | error _ => rw [step_of_error hr]
    | ok result =>
      obtain ⟨hn, hnext, _⟩ := Queue.register_fields hr
      rw [step_of_ok hr]
      dsimp only
      rw [hnext, hn]
      exact Nat.le_succ _
  | next => exact heq (Queue.next_fields h.queue).2.2
  | markWritten s => exact heq rfl
  | acknowledge ack =>
    exact heq (hs.queue.acknowledges (Queue.acknowledges_acknowledge h.queue ack)).2.2.2
  | tick a b => exact heq (Queue.tick_fields hs.queue.distinct a b).2.2
  | dropTo dest => exact heq (Queue.dropTo_fields hs.queue.distinct dest).2.2

theorem Sound.step (hs : Sound cs W h) (e : Event) : Sound cs W (h.step e) := by
  cases e with
  | register dest data reliable =>
    cases hr : h.queue.register dest data reliable with
    | error _ =>
      rw [step_of_error hr]
      exact hs
    | ok result =>
      rw [step_of_ok hr]
      exact hs.registered hr
  | next => exact hs.next
  | markWritten s => exact hs.markWritten s
  | acknowledge ack => exact hs.acknowledge ack
  | tick a b => exact hs.tick a b
  | dropTo dest => exact hs.dropTo dest

end Steps

theorem sound_run (cs W : Nat) (events : List Event) : Sound cs W (run cs W events) := by
  induction events using List.reverseRecOn with
  | nil => exact sound_init cs W
  | append_singleton events e ih =>
    rw [run_append]
    exact ih.step e

/-! ## What an event makes of a message -/

/-- What an event makes of a message that stays in the queue. -/
inductive Evolves (W : Nat) (n : UInt64) (m : Message) : Event → Message → Prop
  | same (e : Event) (still : ∀ a b, e ≠ .tick a b) : Evolves W n m e m
  | asked (o : Option Outgoing) (m' : Message) (emits : Message.Emits W m o m') :
      Evolves W n m .next m'
  | written : Evolves W n m (.markWritten n) m.markWritten
  | acknowledged (ack : Chunk.Header) (m' : Message) (mine : n = ack.sequence)
      (taken : m.acknowledge? ack.total ack.index.toNat = some m') :
      Evolves W n m (.acknowledge ack) m'
  | ticked (a b : Nat) (m' : Message) (t : Tick) (ticks : Message.Ticks W a b m false m' t) :
      Evolves W n m (.tick a b) m'

section Evolves

variable {cs W : Nat} {h : History} {n : UInt64} {e : Event}

theorem Evolves.kin {m m' : Message} (h : Evolves W n m e m') : Message.Kin m m' := by
  cases h with
  | same => exact .refl m
  | asked _ _ emits => exact emits.kin
  | written => exact ⟨rfl, rfl, rfl, rfl⟩
  | acknowledged _ _ _ taken => exact Message.kin_of_acknowledge? taken
  | ticked _ _ _ _ ticks => exact ticks.kin

/-- A message that is there after an event was just taken in, or comes from one that was
there before. -/
theorem Sound.evolves (hs : Sound cs W h) {m' : Message}
    (hm' : (h.step e).queue.find? n = some m') :
    (∃ dest data reliable q pieces, e = .register dest data reliable ∧
      h.queue.register dest data reliable = .ok (n, q) ∧
      m' = { sequence := n, dest, reliable, pieces }) ∨
    ∃ m, h.queue.find? n = some m ∧ Evolves W n m e m' := by
  cases e with
  | register dest data reliable =>
    cases hr : h.queue.register dest data reliable with
    | error _ =>
      rw [step_of_error hr] at hm'
      exact Or.inr ⟨m', hm', .same _ (by simp)⟩
    | ok result =>
      rw [step_of_ok hr] at hm'
      rcases Queue.message_of_register hs.queue hr hm' with ⟨rfl, pieces, _, rfl⟩ | ⟨_, hm⟩
      · exact Or.inl ⟨dest, data, reliable, _, pieces, rfl, hr, rfl⟩
      · exact Or.inr ⟨m', hm, .same _ (by simp)⟩
  | next =>
    obtain ⟨m, hm, ⟨rfl, _⟩ | hemits⟩ := Queue.message_of_next hs.queue hm'
    · exact Or.inr ⟨m', hm, .same _ (by simp)⟩
    · exact Or.inr ⟨m, hm, .asked _ m' (hs.flight ▸ hemits)⟩
  | markWritten s =>
    obtain ⟨m, hm, rfl⟩ := Queue.message_of_markWritten hm'
    refine Or.inr ⟨m, hm, ?_⟩
    by_cases hn : n = s
    · rw [if_pos hn, ← hn]
      exact .written
    · rw [if_neg hn]
      exact .same _ (by simp)
  | acknowledge ack =>
    have hack := Queue.acknowledges_acknowledge h.queue ack
    rcases Queue.message_of_acknowledges hs.queue hack hm' with hm | ⟨hn, m, hm, taken, _⟩
    · exact Or.inr ⟨m', hm, .same _ (by simp)⟩
    · exact Or.inr ⟨m, hm, .acknowledged ack m' hn taken⟩
  | tick a b =>
    obtain ⟨m, t, hm, ht⟩ := Queue.ticks_of_find? hs.queue hm'
    exact Or.inr ⟨m, hm, .ticked a b m' t (hs.flight ▸ ht)⟩
  | dropTo dest =>
    have hm : (h.queue.dropTo dest).2.find? n = some m' := hm'
    rw [Queue.find?_dropTo hs.queue, Option.filter_eq_some_iff] at hm
    exact Or.inr ⟨m', hm.1, .same _ (by simp)⟩

/-- Only ticks make a message older. -/
theorem age_step (hn : n.toNat < h.queue.nextNumber.toNat)
    (still : ∀ a b, e ≠ .tick a b) : age n (h.step e).log = age n h.log := by
  cases e with
  | register dest data reliable =>
    cases hr : h.queue.register dest data reliable with
    | error _ => rw [step_of_error hr]
    | ok result =>
      rw [step_of_ok hr]
      refine if_neg fun hc => Nat.lt_irrefl n.toNat ?_
      rwa [← (Queue.register_fields hr).1, hc] at hn
  | next =>
    show age n (h.queue.next.1.toList.map .emitted ++ h.log) = _
    cases h.queue.next.1 <;> rfl
  | tick a b => exact absurd rfl (still a b)
  | markWritten | acknowledge | dropTo => rfl

end Evolves

/-! ## Moments of a run -/

/-- The history after the first `k` events. -/
def after (cs W : Nat) (events : List Event) (k : Nat) : History := run cs W (events.take k)

section Moments

variable {cs W : Nat} {events : List Event} {k : Nat}

theorem after_succ {e : Event} (he : events[k]? = some e) :
    after cs W events (k + 1) = step (after cs W events k) e := by
  rw [after, List.take_add_one, he, Option.toList_some, run_append, after]

theorem sound_after (cs W : Nat) (events : List Event) (k : Nat) :
    Sound cs W (after cs W events k) :=
  sound_run cs W _

/-- The event with number `k` puts a chunk of the message on the wire. -/
def EmitsAt (cs W : Nat) (events : List Event) (n : UInt64) (k : Nat) : Prop :=
  events[k]? = some .next ∧
    ∃ o, (after cs W events k).queue.next.1 = some o ∧ o.header.sequence = n

end Moments

end History

end Courier.Outbound
