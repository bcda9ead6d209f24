import Courier.Proofs.Outbound.Departure
import Mathlib.Algebra.GroupWithZero.Nat

/-!
The life of a message in the queue, from the number that it is given to the one event that
takes it out. Main statement: with a fixed number of ticks to wait, every message that is
taken in leaves in exactly one of the four ways and never comes back, and a reliable one
leaves within so many ticks for each of its chunks.
-/

namespace Courier.Outbound

namespace History

variable {cs W : Nat} {h : History} {n : UInt64} {m : Message}

/-! ## What is gone stays gone -/

theorem Sound.find?_step_eq_none (hs : Sound cs W h) (hn : n.toNat < h.queue.nextNumber.toNat)
    (hnone : h.queue.find? n = none) (e : Event) : (h.step e).queue.find? n = none := by
  by_contra hne
  obtain ⟨m', hm'⟩ := Option.ne_none_iff_exists'.mp hne
  rcases hs.evolves hm' with ⟨_, _, _, _, _, _, hr, _⟩ | ⟨m, hm, _⟩
  · exact Nat.lt_irrefl _ ((Queue.register_fields hr).1 ▸ hn)
  · cases hnone.symm.trans hm

section After

variable {events : List Event} {j k : Nat}

theorem after_succ_of_none (he : events[k]? = none) :
    after cs W events (k + 1) = after cs W events k := by
  rw [after, List.take_add_one, he, Option.toList_none, List.append_nil, after]

theorem nextNumber_le_after (hjk : j ≤ k) : (after cs W events j).queue.nextNumber.toNat ≤
    (after cs W events k).queue.nextNumber.toNat := by
  induction k, hjk using Nat.le_induction with
  | base => exact Nat.le_refl _
  | succ k _ ih =>
    refine Nat.le_trans ih ?_
    cases he : events[k]? with
    | none => rw [after_succ_of_none he]
    | some e =>
      rw [after_succ he]
      exact (sound_after cs W events k).nextNumber_le e

theorem find?_after_eq_none (hjk : j ≤ k) (hn : n ∈ given (after cs W events j).log)
    (hnone : (after cs W events j).queue.find? n = none) :
    (after cs W events k).queue.find? n = none := by
  induction k, hjk using Nat.le_induction with
  | base => exact hnone
  | succ k hjk ih =>
    cases he : events[k]? with
    | none => rw [after_succ_of_none he, ih]
    | some e =>
      rw [after_succ he]
      have hlt := (sound_after cs W events j).mem_given_iff.mp hn
      exact (sound_after cs W events k).find?_step_eq_none
        (Nat.lt_of_lt_of_le hlt (nextNumber_le_after hjk)) ih e

end After

/-! ## What a tick reports -/

theorem abandoned_sublist (W a b : Nat) (l : List Message) :
    (l.flatMap fun m => (Queue.tickMessage W a b m).2.2.abandoned).Sublist
      (l.map (·.sequence)) := by
  induction l with
  | nil => exact .slnil
  | cons m l ih =>
    have ht := Message.ticks_tickMessage W a b m
    rw [List.flatMap_cons, List.map_cons]
    generalize Queue.tickMessage W a b m = result at ht ⊢
    obtain ⟨gone, m', t⟩ := result
    dsimp only at ht ⊢
    cases ht with
    | abandoned => exact ih.cons_cons m.sequence
    | finished | unfinished | again | waits => exact ih.cons m.sequence

end History

namespace Queue

theorem Sound.nodup_abandoned {q : Queue} (h : q.Sound) (a b : Nat) :
    (q.tick a b).1.abandoned.Nodup := by
  rw [tick_fst]
  exact h.distinct.sublist (History.abandoned_sublist q.maxFlight a b q.ring)

/-- A best-effort message all of whose chunks were sent and written. -/
def Done (m : Message) : Bool := !m.reliable && m.allSent && m.queued == 0

theorem done_iff {m : Message} :
    Done m = true ↔ m.reliable = false ∧ m.firstUnsent = m.total ∧ m.queued = 0 := by
  simp [Done, Message.allSent, and_assoc]

/-- A tick counts the best-effort messages that it finds done. -/
theorem purged_eq (q : Queue) (a b : Nat) :
    (q.tick a b).1.purged = (q.ring.filter Done).length := by
  have hone : ∀ m, (tickMessage q.maxFlight a b m).2.2.purged = if Done m = true then 1 else 0 := by
    intro m
    have ht := Message.ticks_tickMessage q.maxFlight a b m
    generalize tickMessage q.maxFlight a b m = result at ht ⊢
    obtain ⟨gone, m', t⟩ := result
    dsimp only at ht ⊢
    cases ht with
    | finished kind sent idle => rw [if_pos (done_iff.mpr ⟨kind, sent, idle⟩)]
    | unfinished kind busy =>
      rw [if_neg]
      rintro hd
      obtain ⟨_, hsent, hidle⟩ := done_iff.mp hd
      exact busy.elim (· hsent) (· hidle)
    | abandoned kind | again kind | waits kind =>
      rw [if_neg]
      rintro hd
      cases kind.symm.trans (done_iff.mp hd).1
  rw [tick_fst]
  simp only [hone]
  rw [sum_map_ite]
  simp

theorem contains_eq_false {q : Queue} {n : UInt64} : q.contains n = false ↔ q.find? n = none := by
  rw [contains, Option.isSome_eq_false_iff, Option.isNone_iff_eq_none]

theorem contains_eq_true {q : Queue} {n : UInt64} :
    q.contains n = true ↔ ∃ m, q.find? n = some m := by
  rw [contains, Option.isSome_iff_exists]

end Queue

namespace History

variable {cs W b : Nat} {h : History} {n : UInt64} {m m' : Message}

/-! ## What was given up -/

/-- No message is given up twice, and one that was is no longer there. -/
structure Buried (h : History) : Prop where
  once : (abandoned h.log).Nodup
  gone : ∀ n ∈ abandoned h.log, h.queue.find? n = none

theorem Sound.lt_of_abandoned (hs : Sound cs W h) (hn : n ∈ abandoned h.log) :
    n.toNat < h.queue.nextNumber.toNat := by
  obtain ⟨f, hf, hn⟩ := List.mem_flatMap.mp hn
  cases f with
  | ticked outcome => exact hs.named _ hf n hn
  | _ => cases hn

/-- Only a tick gives a message up. -/
theorem abandoned_step (h : History) (e : Event) :
    abandoned (h.step e).log = abandoned h.log ∨
      ∃ a b, e = .tick a b ∧
        abandoned (h.step e).log = (h.queue.tick a b).1.abandoned ++ abandoned h.log := by
  cases e with
  | register dest data reliable =>
    cases hr : h.queue.register dest data reliable with
    | error _ => exact Or.inl (congrArg (abandoned ·.log) (step_of_error hr))
    | ok _ => exact Or.inl (congrArg (abandoned ·.log) (step_of_ok hr))
  | next =>
    refine Or.inl ?_
    show abandoned (h.queue.next.1.toList.map .emitted ++ h.log) = _
    cases h.queue.next.1 <;> rfl
  | markWritten | acknowledge | dropTo => exact Or.inl rfl
  | tick a b => exact Or.inr ⟨a, b, rfl, rfl⟩

theorem Buried.step (hb : Buried h) (hs : Sound cs W h) (e : Event) : Buried (h.step e) := by
  have hstill : ∀ n ∈ abandoned h.log, (h.step e).queue.find? n = none :=
    fun n hn => hs.find?_step_eq_none (hs.lt_of_abandoned hn) (hb.gone n hn) e
  rcases abandoned_step h e with heq | ⟨a, b, rfl, heq⟩
  · exact ⟨heq ▸ hb.once, heq ▸ hstill⟩
  · constructor
    · rw [heq, List.nodup_append]
      refine ⟨hs.queue.nodup_abandoned a b, hb.once, fun n hn n' hn' hc => ?_⟩
      obtain ⟨m, hm, _⟩ := (Queue.mem_abandoned hs.queue).mp hn
      cases (hb.gone n' hn').symm.trans (hc ▸ hm)
    · intro n hn
      rw [heq, List.mem_append] at hn
      rcases hn with hn | hn
      · exact (Queue.mem_gone hs.queue).mp (Queue.gone_of_abandoned hs.queue hn) |>.2
      · exact hstill n hn

theorem buried_run (cs W : Nat) (events : List Event) : Buried (run cs W events) := by
  induction events using List.reverseRecOn with
  | nil => exact ⟨List.nodup_nil, fun _ hn => by cases hn⟩
  | append_singleton events e ih =>
    rw [run_append]
    exact ih.step (sound_run cs W events) e

/-! ## How long a message waits -/

/-- All ticks wait equally long before they give a message up; when they send again is open. -/
def Steady (b : Nat) (events : List Event) : Prop :=
  ∀ a b', .tick a b' ∈ events → b' = b

/-- A message that made progress `m.acked.size` times waited less than `max 1 b` ticks before
each, and since the last one. -/
structure InTime (b : Nat) (n : UInt64) (m : Message) (log : List Fact) : Prop where
  waiting : m.stalledTicks < max 1 b
  young : age n log ≤ m.acked.size * (max 1 b - 1) + m.stalledTicks

def Punctual (b : Nat) (h : History) : Prop :=
  ∀ n m, h.queue.find? n = some m → m.reliable = true → InTime b n m h.log

theorem InTime.same {log log' : List Fact} (ht : InTime b n m log)
    (hstalled : m'.stalledTicks = m.stalledTicks) (hacked : m'.acked = m.acked)
    (hage : age n log' = age n log) : InTime b n m' log' where
  waiting := hstalled ▸ ht.waiting
  young := by
    rw [hage, hstalled, hacked]
    exact ht.young

theorem InTime.acknowledged {log log' : List Fact} (ht : InTime b n m log) {total : UInt16}
    {i : Nat} (ha : m.acknowledge? total i = some m') (hage : age n log' = age n log) :
    InTime b n m' log' := by
  obtain ⟨⟨_, _, _, hnew⟩, rfl⟩ := Message.acknowledge?_eq_some_iff.mp ha
  refine ⟨show 0 < max 1 b by omega, ?_⟩
  show age n log' ≤ (m.acked.insert i).size * (max 1 b - 1) + 0
  rw [hage, Std.TreeSet.size_insert, Message.contains_eq_false.mpr hnew,
    if_neg Bool.false_ne_true, Nat.add_one_mul]
  have := ht.waiting
  have := ht.young
  omega

theorem InTime.ticked {log : List Fact} (ht : InTime b n m log) (hr : m.reliable = true)
    {a : Nat} {t : Tick} (hk : Message.Ticks W a b m false m' t) (outcome : Tick) :
    InTime b n m' (.ticked outcome :: log) := by
  have hyoung := ht.young
  cases hk with
  | unfinished kind => cases kind.symm.trans hr
  | again kind early | waits kind early =>
    refine ⟨show m.stalledTicks + 1 < max 1 b by omega, ?_⟩
    rw [age_cons, Fact.age]
    exact Nat.succ_le_succ hyoung

theorem Punctual.step (hp : Punctual b h) (hs : Sound cs W h) {e : Event}
    (he : ∀ a b', e = .tick a b' → b' = b) : Punctual b (h.step e) := by
  intro n m' hm' hr
  rcases hs.evolves hm' with ⟨dest, data, reliable, q, pieces, rfl, hok, rfl⟩ | ⟨m, hm, hev⟩
  · -- a message that was just taken in has not waited at all
    rw [step_of_ok hok]
    refine ⟨show 0 < max 1 b by omega, ?_⟩
    rw [age_cons, Fact.age, if_pos rfl]
    exact Nat.zero_le _
  · have hage := fun still => age_step (e := e) (hs.queue.lt_next hm) still
    cases hev with
    | same _ still => exact (hp n m' hm hr).same rfl rfl (hage still)
    | asked _ _ emits =>
      have ht := hp n m hm (emits.kin.reliable ▸ hr)
      exact ht.same emits.stalledTicks_eq emits.grows.2 (hage (by simp))
    | written => exact (hp n m hm hr).same rfl rfl (hage (by simp))
    | acknowledged _ _ _ taken =>
      have ht := hp n m hm ((Message.kin_of_acknowledge? taken).reliable ▸ hr)
      exact ht.acknowledged taken (hage (by simp))
    | ticked a b' _ _ ticks =>
      obtain rfl := he a b' rfl
      have hr' : m.reliable = true := ticks.kin.reliable ▸ hr
      exact (hp n m hm hr').ticked hr' ticks _

theorem punctual_run (cs W : Nat) {events : List Event} (hb : Steady b events) :
    Punctual b (run cs W events) := by
  induction events using List.reverseRecOn with
  | nil => intro n m hm; cases hm
  | append_singleton events e ih =>
    rw [run_append]
    refine (ih fun a b' he => hb a b' (List.mem_append_left _ he)).step (sound_run cs W events) ?_
    rintro a b' rfl
    exact hb a b' (by simp)

theorem punctual_after (cs W : Nat) {events : List Event} (hb : Steady b events) (k : Nat) :
    Punctual b (after cs W events k) :=
  punctual_run cs W fun a b' he => hb a b' (List.mem_of_mem_take he)

/-- Each chunk of a message grants it no more than `max 1 b` ticks. -/
theorem Punctual.age_lt (hp : Punctual b h) (hs : Sound cs W h) (hm : h.queue.find? n = some m)
    (hr : m.reliable = true) : age n h.log < m.total * max 1 b := by
  obtain ⟨hwaiting, hyoung⟩ := hp n m hm hr
  have hmissing := (hs.queue.message hm).not_allAcked
  calc age n h.log
      ≤ m.acked.size * (max 1 b - 1) + m.stalledTicks := hyoung
    _ ≤ m.acked.size * max 1 b + m.stalledTicks :=
        Nat.add_le_add_right (Nat.mul_le_mul_left _ (Nat.sub_le _ _)) _
    _ < m.acked.size * max 1 b + max 1 b := Nat.add_lt_add_left hwaiting _
    _ = (m.acked.size + 1) * max 1 b := (Nat.succ_mul _ _).symm
    _ ≤ m.total * max 1 b := Nat.mul_le_mul_right _ hmissing

/-! ## The whole life -/

section Events

variable {events : List Event} {j k : Nat}

/-- A number that is given belongs to the message that was just taken in. -/
theorem given_succ (hn : n ∈ given (after cs W events (k + 1)).log)
    (hnew : n ∉ given (after cs W events k).log) :
    (after cs W events (k + 1)).queue.contains n = true := by
  cases he : events[k]? with
  | none => exact absurd (after_succ_of_none he ▸ hn) hnew
  | some e =>
    have hs := sound_after cs W events k
    rw [after_succ he] at hn ⊢
    cases e with
    | register dest data reliable =>
      cases hr : (after cs W events k).queue.register dest data reliable with
      | error _ => exact absurd (step_of_error hr ▸ hn) hnew
      | ok result =>
        obtain ⟨_, pieces, _, hfind⟩ := Queue.find?_register hs.queue hr n
        rw [step_of_ok hr] at hn ⊢
        rcases List.mem_cons.mp hn with rfl | hn
        · exact Queue.contains_eq_true.mpr ⟨_, by rw [hfind, if_pos rfl]⟩
        · exact absurd hn hnew
    | next =>
      refine absurd ?_ hnew
      have hsame : given ((after cs W events k).step .next).log =
          given (after cs W events k).log := by
        show given ((after cs W events k).queue.next.1.toList.map .emitted ++ _) = _
        cases (after cs W events k).queue.next.1 <;> rfl
      exact hsame ▸ hn
    | markWritten | acknowledge | tick | dropTo => exact absurd hn hnew

theorem exists_leaves (hn : n ∈ given (after cs W events k).log)
    (hnone : (after cs W events k).queue.contains n = false) :
    ∃ j < k, (after cs W events j).queue.contains n = true ∧
      (after cs W events (j + 1)).queue.contains n = false := by
  induction k with
  | zero => cases hn
  | succ k ih =>
    cases hc : (after cs W events k).queue.contains n with
    | true => exact ⟨k, Nat.lt_succ_self k, hc, hnone⟩
    | false =>
      by_cases hold : n ∈ given (after cs W events k).log
      · obtain ⟨j, hj, hleaves⟩ := ih hold hc
        exact ⟨j, Nat.lt_succ_of_lt hj, hleaves⟩
      · cases hnone.symm.trans (given_succ hn hold)

theorem contains_after_left (hjk : j < k) (there : (after cs W events j).queue.contains n = true)
    (gone : (after cs W events (j + 1)).queue.contains n = false) :
    (after cs W events k).queue.contains n = false := by
  obtain ⟨m, hm⟩ := Queue.contains_eq_true.mp there
  have hlt := (sound_after cs W events j).queue.lt_next hm
  have hgiven := (sound_after cs W events (j + 1)).mem_given_iff.mpr
    (Nat.lt_of_lt_of_le hlt (nextNumber_le_after (Nat.le_succ j)))
  have hnone := find?_after_eq_none hjk hgiven (Queue.contains_eq_false.mp gone)
  exact Queue.contains_eq_false.mpr hnone

end Events

/-- The life of every message of a run in which all ticks wait equally long. -/
structure Orderly (cs W b : Nat) (events : List Event) : Prop where
  /-- the numbers given are 0, 1, 2, ..., newest first -/
  numbered : ∀ k, (given (after cs W events k).log).map (·.toNat) =
    (List.range (given (after cs W events k).log).length).reverse
  /-- a message is taken in if it is neither empty nor too large and a number is left -/
  accepts : ∀ k dest data reliable, events[k]? = some (.register dest data reliable) →
    ((∃ n q, (after cs W events k).queue.register dest data reliable = .ok (n, q)) ↔
      data ≠ [] ∧ data.length ≤ Chunk.maxCount * cs ∧ Chunk.maxCount * cs ≤ wordMax ∧
        (given (after cs W events k).log).length ≠ wordMax)
  refused : ∀ k dest data reliable e, events[k]? = some (.register dest data reliable) →
    (after cs W events k).queue.register dest data reliable = .error e →
    after cs W events (k + 1) = after cs W events k
  taken : ∀ k dest data reliable n q, events[k]? = some (.register dest data reliable) →
    (after cs W events k).queue.register dest data reliable = .ok (n, q) →
    n ∉ given (after cs W events k).log ∧
      (after cs W events (k + 1)).log =
        .registered n dest data reliable :: (after cs W events k).log ∧
      (after cs W events (k + 1)).queue.contains n = true
  leaves : ∀ k e n, events[k]? = some e → (after cs W events k).queue.contains n = true →
    ((after cs W events (k + 1)).queue.contains n = false ↔
      ∃! x, Leaves cs n (after cs W events k).log e x)
  /-- a tick lists the messages that it gives up -/
  abandons : ∀ k a b', events[k]? = some (.tick a b') →
    ∀ n, n ∈ ((after cs W events k).queue.tick a b').1.abandoned ↔
      (after cs W events k).queue.contains n = true ∧
        Leaves cs n (after cs W events k).log (.tick a b') .abandoned
  /-- a tick counts the messages that it finds sent and written -/
  purges : ∀ k a b', events[k]? = some (.tick a b') →
    ∃ l : List UInt64, l.Nodup ∧
      (∀ n, n ∈ l ↔ (after cs W events k).queue.contains n = true ∧
        Leaves cs n (after cs W events k).log (.tick a b') .finished) ∧
      ((after cs W events k).queue.tick a b').1.purged = l.length
  /-- no message is given up twice -/
  once : ∀ k, (abandoned (after cs W events k).log).Nodup
  /-- a message that is no longer there left with one event -/
  left : ∀ k n, n ∈ given (after cs W events k).log →
    (after cs W events k).queue.contains n = false →
    ∃! j, j < k ∧ (after cs W events j).queue.contains n = true ∧
      (after cs W events (j + 1)).queue.contains n = false
  /-- and neither comes back nor goes on the wire again -/
  gone : ∀ j k n, j ≤ k → n ∈ given (after cs W events j).log →
    (after cs W events j).queue.contains n = false →
    (after cs W events k).queue.contains n = false ∧ ¬ EmitsAt cs W events n k
  bounded : ∀ k n dest data total, .registered n dest data true ∈ (after cs W events k).log →
    Chunk.count? data.length cs = some total →
    total * max 1 b ≤ age n (after cs W events k).log →
    (after cs W events k).queue.contains n = false

theorem Sound.tick_abandoned_iff (hs : Sound cs W h) (hp : Punctual b h) (a : Nat) :
    n ∈ (h.queue.tick a b).1.abandoned ↔
      h.queue.contains n = true ∧ Leaves cs n h.log (.tick a b) .abandoned := by
  rw [Queue.mem_abandoned hs.queue, Queue.contains_eq_true]
  constructor
  · rintro ⟨m, hm, hr, hlate⟩
    have hwaiting := (hp n m hm hr).waiting
    exact ⟨⟨m, hm⟩, (hs.abandoned_iff hm a b).mpr ⟨hr, by omega⟩⟩
  · rintro ⟨⟨m, hm⟩, hl⟩
    obtain ⟨hr, hlate⟩ := (hs.abandoned_iff hm a b).mp hl
    exact ⟨m, hm, hr, by omega⟩

theorem Sound.tick_purged (hs : Sound cs W h) (a b : Nat) :
    ∃ l : List UInt64, l.Nodup ∧
      (∀ n, n ∈ l ↔ h.queue.contains n = true ∧ Leaves cs n h.log (.tick a b) .finished) ∧
      (h.queue.tick a b).1.purged = l.length := by
  refine ⟨(h.queue.ring.filter Queue.Done).map (·.sequence), ?_, fun n => ?_, ?_⟩
  · exact hs.queue.distinct.sublist (List.filter_sublist.map _)
  · rw [Queue.contains_eq_true, List.mem_map]
    constructor
    · rintro ⟨m, hm, rfl⟩
      obtain ⟨hmem, hdone⟩ := List.mem_filter.mp hm
      have hfind := hs.queue.find?_iff.mpr ⟨hmem, rfl⟩
      exact ⟨⟨m, hfind⟩, (hs.finished_iff hfind a b).mpr (Queue.done_iff.mp hdone)⟩
    · rintro ⟨⟨m, hm⟩, hl⟩
      obtain ⟨hmem, hn⟩ := hs.queue.find?_iff.mp hm
      have hdone := Queue.done_iff.mpr ((hs.finished_iff hm a b).mp hl)
      exact ⟨m, List.mem_filter.mpr ⟨hmem, hdone⟩, hn⟩
  · rw [Queue.purged_eq, List.length_map]

/-- Every message that is taken in gets a number of its own and leaves in exactly one of the
four ways, for good; a reliable one at the latest after so many ticks for each of its chunks
as a tick waits for. -/
theorem orderly_run (cs W b : Nat) (events : List Event) (steady : Steady b events) :
    Orderly cs W b events where
  numbered k := by
    have hs := sound_after cs W events k
    rw [hs.length_given, hs.given_eq]
  accepts k dest data reliable _ := by
    have hs := sound_after cs W events k
    rw [Queue.exists_register_eq_ok_iff, hs.size, hs.length_given]
  refused k dest data reliable e he hr := by rw [after_succ he, step_of_error hr]
  taken k dest data reliable n q he hr := by
    have hs := sound_after cs W events k
    obtain ⟨_, pieces, _, hfind⟩ := Queue.find?_register hs.queue hr n
    rw [after_succ he, step_of_ok hr]
    refine ⟨fun hn => ?_, rfl, Queue.contains_eq_true.mpr ⟨_, by rw [hfind, if_pos rfl]⟩⟩
    have hlt := hs.mem_given_iff.mp hn
    rw [(Queue.register_fields hr).1] at hlt
    exact Nat.lt_irrefl _ hlt
  leaves k e n he hc := by
    have hs := sound_after cs W events k
    obtain ⟨m, hm⟩ := Queue.contains_eq_true.mp hc
    rw [after_succ he, Queue.contains_eq_false, hs.leaves_iff hm e ?_]
    · exact ⟨fun ⟨x, hx⟩ => ⟨x, hx, fun y hy => hs.leaves_unique hy hx⟩, fun ⟨x, hx, _⟩ => ⟨x, hx⟩⟩
    · rintro a b' rfl hr
      obtain rfl := steady a b' (List.mem_of_getElem? he)
      exact (punctual_after cs W steady k n m hm hr).waiting
  abandons k a b' he n := by
    obtain rfl := steady a b' (List.mem_of_getElem? he)
    exact (sound_after cs W events k).tick_abandoned_iff (punctual_after cs W steady k) a
  purges k a b' _ := (sound_after cs W events k).tick_purged a b'
  once k := (buried_run cs W (events.take k)).once
  left k n hn hnone := by
    obtain ⟨j, hj, there, gone⟩ := exists_leaves hn hnone
    refine ⟨j, ⟨hj, there, gone⟩, ?_⟩
    rintro i ⟨_, there', gone'⟩
    rcases Nat.lt_trichotomy i j with hij | rfl | hij
    · cases there.symm.trans (contains_after_left hij there' gone')
    · rfl
    · cases there'.symm.trans (contains_after_left hij there gone)
  gone j k n hjk hn hnone := by
    have hk := find?_after_eq_none hjk hn (Queue.contains_eq_false.mp hnone)
    refine ⟨Queue.contains_eq_false.mpr hk, ?_⟩
    rintro ⟨_, o, ho, rfl⟩
    obtain ⟨m, _, hm, _⟩ := Queue.emits_of_next (sound_after cs W events k).queue ho
    cases hk.symm.trans hm
  bounded k n dest data total hreg hcount hage := by
    have hs := sound_after cs W events k
    rw [Queue.contains_eq_false]
    by_contra hne
    obtain ⟨m, hm⟩ := Option.ne_none_iff_exists'.mp hne
    obtain ⟨_, hr, hcount'⟩ := hs.registered_eq hm hreg
    obtain rfl : m.total = total := Option.some.inj (hcount'.symm.trans hcount)
    exact Nat.lt_irrefl _ (Nat.lt_of_lt_of_le ((punctual_after cs W steady k).age_lt hs hm hr) hage)

/-- A reliable message whose acknowledgements never arrive, with three ticks to wait. -/
def unheard : List Event :=
  let peer : SocketAddr := { ip := .v4 127 0 0 1, port := 7001 }
  [.register peer [1, 2] true, .next, .next, .tick 1 3, .next, .tick 1 3, .tick 1 3]

theorem orderly_unheard :
    (abandoned (after 1 4 unheard 7).log = [0] ∧
      (after 1 4 unheard 6).queue.contains 0 = true ∧
      (after 1 4 unheard 7).queue.contains 0 = false) ∧
    Orderly 1 4 3 unheard := by
  refine ⟨⟨by decide, by decide, by decide⟩, orderly_run 1 4 3 unheard ?_⟩
  intro a b' he
  have hticks : a = 1 ∧ b' = 3 := by simpa [unheard] using he
  exact hticks.2

end History

end Courier.Outbound
