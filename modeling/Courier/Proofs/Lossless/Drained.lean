import Courier.Proofs.Link.Exact
import Courier.Proofs.Lossless.Conserved

/-!
No deadlock. When nothing is under way and the sender has nothing that it may send, there is
nothing left to do: the window of a reliable message is never shut for good, since what keeps
it shut is a chunk or an acknowledgement on the network.
-/

namespace Courier.Lossless

open Outbound Reassembly

/-! ## The receiver -/

/-- No message was disturbed, and none was delivered twice. -/
structure Unhindered (s : Link.Setup) (log : List Link.Fact) : Prop where
  undisturbed : ∀ n, Link.Undisturbed s n log
  once : ∀ n, log.countP (·.Completes n) ≤ 1

theorem Unhindered.cons {s : Link.Setup} {log : List Link.Fact} (h : Unhindered s log)
    {f : Link.Fact} (hd : ∀ n, ¬ f.Disturbs s n)
    (hc : ∀ n, f.Completes n → ¬ Link.Completed n log) : Unhindered s (f :: log) where
  undisturbed := fun n g hg => by
    rcases List.mem_cons.mp hg with rfl | hg
    · exact hd n
    · exact h.undisturbed n g hg
  once := fun n => by
    by_cases hf : f.Completes n
    · have hnone : log.countP (·.Completes n) = 0 := by
        refine List.countP_eq_zero.mpr fun g hg hgn => hc n hf ?_
        exact Link.completed_iff.mpr ⟨g, hg, of_decide_eq_true hgn⟩
      rw [List.countP_cons, hnone, Nat.zero_add]
      split
      · exact Nat.le_refl 1
      · exact Nat.zero_le 1
    · rw [List.countP_cons, if_neg (by simpa using hf)]
      exact h.once n

section

variable {s : Setup} {t t' : Lossless}

theorem Steps.registeredBytes_le (hst : Steps s t t') (hs : Sound s t) :
    Link.registeredBytes t.link.log ≤ Link.registeredBytes t'.link.log := by
  obtain ⟨e, hlink⟩ := hst.link hs
  rcases hlink.log_eq with heq | ⟨f, heq⟩
  · exact Nat.le_of_eq (by rw [heq])
  · rw [heq]
    exact Link.registeredBytes_le_cons f _

/-- With room for all messages no chunk is turned away. -/
theorem Unhindered.step (h : Unhindered s.toSetup t.link.log) (hs : Sound s t)
    (hst : Steps s t t') (hroom : Link.registeredBytes t.link.log ≤ s.far.maxPartialBytes) :
    Unhindered s.toSetup t'.link.log := by
  cases hst with
  | registered data reliable n q => exact h.cons (fun _ => id) fun _ => False.elim
  | arrived place o now found =>
    have ho := hs.flying (List.mem_of_getElem? found)
    obtain ⟨hcrowded, hbeyond⟩ := hs.far.not_crowded hs.near ho now hroom s.word
      fun n dest data r hreg => (hs.registered n dest data r hreg).2.2
    refine h.cons (fun n hd => hd.2.elim hcrowded hbeyond) fun n hc => ?_
    unfold Link.Fact.Completes at hc
    split at hc
    · rename_i heq
      obtain ⟨rfl, hcomplete, _⟩ := Link.Fact.arrived.inj heq
      exact hc ▸ hs.far.once hs.near ho hcomplete (h.undisturbed _)
    · exact hc.elim
  | acknowledged => exact h.cons (fun _ => id) fun _ => False.elim
  | _ => exact h

theorem unhindered_run (s : Setup) (events : List Event) :
    Link.registeredBytes (run s events).link.log ≤ s.far.maxPartialBytes →
      Unhindered s.toSetup (run s events).link.log :=
  (run_of_steps (P := fun t => Link.registeredBytes t.link.log ≤ s.far.maxPartialBytes →
      Unhindered s.toSetup t.link.log)
    (fun _ => ⟨fun _ _ hf => absurd hf List.not_mem_nil, fun _ => Nat.zero_le _⟩)
    (fun _ _ hs hst h hroom =>
      have hbefore := Nat.le_trans (hst.registeredBytes_le hs) hroom
      (h hbefore).step hs hst hbefore) events).2

/-! ## Nothing under way -/

theorem Quiet.came (hq : t.Quiet) (h : Conserved s t) {n : UInt64} {i : Nat} (hi : Sent t n i) :
    Link.Came n i t.link.log := by
  obtain ⟨o, ho, rfl, rfl⟩ := hi
  refine (h.travels o ho).resolve_left fun hflying => ?_
  rw [hq.landed] at hflying
  cases hflying

/-- A reliable message then waits for nothing. -/
theorem Quiet.unacked_eq_nil (hq : t.Quiet) (h : Conserved s t) {n : UInt64} {m : Message}
    (hm : t.queue.find? n = some m) (hr : m.reliable = true) : m.unacked = [] := by
  refine List.eq_nil_iff_forall_not_mem.mpr fun i hi => ?_
  obtain ⟨hlt, hnot⟩ := Message.mem_unacked.mp hi
  rcases h.answered n m hm hr i (hq.came h (h.sent n m hm i hlt)) with hacked | ⟨o, _, _, _, hb⟩
  · exact hnot hacked
  · rw [hq.heard] at hb
    cases hb

/-- So the limit on chunks under way holds no message up. -/
theorem Quiet.hasRoom (hq : t.Quiet) (h : Conserved s t) (hs : Sound s t) {n : UInt64}
    {m : Message} (hm : t.queue.find? n = some m) : m.hasRoom t.queue.maxFlight = true := by
  have hpos : 0 < t.queue.maxFlight := by
    rw [show t.queue.maxFlight = s.near.maxFlight from hs.near.flight]
    exact s.flight
  unfold Message.hasRoom
  cases hr : m.reliable with
  | true =>
    have hzero : m.outstanding = 0 := by
      rw [(hs.queue.message hm).outstanding_eq hr, hq.unacked_eq_nil h hm hr, List.length_nil]
    simpa [hzero] using hpos
  | false =>
    have hzero : m.queued = 0 := by
      rw [h.queued n m hm, hq.written, List.count_nil]
    simpa [hzero] using hpos

/-- What is in the queue has sent all its chunks, and is a best-effort message. -/
theorem Quiet.finished (hq : t.Quiet) (h : Conserved s t) (hs : Sound s t) {n : UInt64}
    {m : Message} (hm : t.queue.find? n = some m) :
    m.firstUnsent = m.total ∧ m.reliable = false := by
  have hmem := (hs.queue.find?_iff.mp hm).1
  have hroom := hq.hasRoom h hs hm
  have hall : m.firstUnsent = m.total := by
    have hemits := Message.emits_of_fst (Queue.emit_none_of_next hq.idle m hmem)
    generalize (m.emit t.queue.maxFlight).2 = m' at hemits
    cases hemits with
    | idle lost stuck => exact stuck.resolve_right (by simp [hroom])
  refine ⟨hall, Bool.eq_false_iff.mpr fun hr => ?_⟩
  -- a reliable message leaves the queue with its last acknowledgement
  have hsound := hs.queue.message hm
  have hsize := hsound.size_acked
  have hopen := hsound.not_allAcked
  rw [hq.unacked_eq_nil h hm hr, List.length_nil] at hsize
  omega

/-- Every chunk of every message has arrived. -/
theorem Quiet.all_came (hq : t.Quiet) (h : Conserved s t) (hs : Sound s t) {n : UInt64}
    {dest : SocketAddr} {data : Bytes} {r : Bool} (hreg : .registered n dest data r ∈ t.link.log)
    {i : Nat} (hi : i * s.far.chunkSize < data.length) : Link.Came n i t.link.log := by
  cases hm : t.queue.find? n with
  | none => exact h.gone n dest data r hreg hm i hi
  | some m =>
    have hlt := (hs.near.lt_total_iff hm hreg i).mpr hi
    rw [← (hq.finished h hs hm).1] at hlt
    exact hq.came h (h.sent n m hm i hlt)

theorem Quiet.completed (hq : t.Quiet) (h : Conserved s t) (hs : Sound s t)
    (hu : Unhindered s.toSetup t.link.log) {n : UInt64} {dest : SocketAddr} {data : Bytes}
    {r : Bool} (hreg : .registered n dest data r ∈ t.link.log) :
    Link.Completed n t.link.log := by
  have hcame := fun i => hq.all_came h hs hreg (i := i)
  refine hs.far.completed_of_came (hu.undisturbed n) (hcame 0 ?_) fun p hp i hi =>
    hcame i ((hs.far.lt_total_iff hs.near hp hreg i).mp hi)
  rw [Nat.zero_mul]
  exact (hs.registered n dest data r hreg).2.1

end

/-! ## The whole run -/

/-- What is left of a run when all is done. -/
structure Drained (s : Setup) (t : Lossless) : Prop where
  /-- each message was completed exactly once -/
  once : ∀ n dest data r, .registered n dest data r ∈ t.link.log →
    t.link.log.countP (·.Completes n) = 1
  /-- and the application at the receiver got its bytes -/
  bytes : ∀ n dest data r, .registered n dest data r ∈ t.link.log →
    ∃ o, o.header.sequence = n ∧ .arrived o (.complete data)
      (some ⟨.ofSocketAddr .udp s.here, data, r⟩) ∈ t.link.log
  /-- no reliable message is left in the queue -/
  settled : ∀ m ∈ t.queue.ring, m.reliable = false
  /-- no chunk was sent twice -/
  apart : (t.link.sent.map fun o => (o.header.sequence, o.header.index)).Nodup

/-- With room for all messages at the receiver, a run over a network without loss does not get
stuck: where nothing is under way and nothing may be sent, all is done. -/
theorem drained_run (s : Setup) (events : List Event)
    (hroom : Link.registeredBytes (run s events).link.log ≤ s.far.maxPartialBytes)
    (hquiet : (run s events).Quiet) : Drained s (run s events) := by
  obtain ⟨hs, hconserved⟩ := conserved_run s events
  have hu := unhindered_run s events hroom
  have hcompleted : ∀ n dest data r, .registered n dest data r ∈ (run s events).link.log →
      Link.Completed n (run s events).link.log :=
    fun n dest data r hreg => hquiet.completed hconserved hs hu hreg
  refine ⟨fun n dest data r hreg => ?_, fun n dest data r hreg => ?_, fun m hm => ?_,
    hconserved.once⟩
  · obtain ⟨f, hf, hn⟩ := Link.completed_iff.mp (hcompleted n dest data r hreg)
    have hpos : 0 < (run s events).link.log.countP (·.Completes n) :=
      List.countP_pos_iff.mpr ⟨f, hf, decide_eq_true hn⟩
    exact Nat.le_antisymm (hu.once n) hpos
  · obtain ⟨o, data', d, hm, rfl⟩ := hcompleted n dest data r hreg
    obtain ⟨⟨r', hreg', rfl⟩, _⟩ := hs.far.delivered o data' d hm
    obtain ⟨_, rfl, rfl⟩ := hs.near.unique _ _ _ _ _ _ _ hreg hreg'
    exact ⟨o, rfl, hm⟩
  · exact (hquiet.finished hconserved hs (hs.queue.find?_iff.mpr ⟨hm, rfl⟩)).2

/-- Chunks of one byte, of which one may be under way, and buffers for three bytes. -/
def narrow : Setup where
  near := { packetSize := 14, maxFlight := 1 }
  far := { packetSize := 14, maxPartialBytes := 3 }
  here := { ip := .v4 127 0 0 1, port := 7000 }
  there := { ip := .v4 127 0 0 1, port := 7001 }
  sameSize := rfl
  flight := by decide
  word := by decide

/-- A best-effort message overtakes a reliable one of two chunks, the second of which waits
for the acknowledgement of the first. -/
def overtaken : List Event :=
  [.register [1, 2] (by decide) true, .register [3] (by decide) false, .pick, .pick, .pick,
    .written 1, .written 0, .arrive 1 5, .arrive 0 6, .acknowledge 0 7, .pick, .written 0,
    .arrive 0 8, .acknowledge 0 9]

theorem drained_overtaken : Link.registeredBytes (run narrow overtaken).link.log = 3 ∧
    (run narrow overtaken).Quiet ∧ Drained narrow (run narrow overtaken) := by
  have hroom : Link.registeredBytes (run narrow overtaken).link.log = 3 := rfl
  have hquiet : (run narrow overtaken).Quiet := ⟨rfl, rfl, rfl, rfl⟩
  exact ⟨hroom, hquiet, drained_run narrow overtaken (Nat.le_of_eq hroom) hquiet⟩

end Courier.Lossless
