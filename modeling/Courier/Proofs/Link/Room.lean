import Courier.Proofs.Link.Far

/-!
Room in the buffers of the far end: what they hold is part of what was registered. With
room for all that was registered no chunk is turned away.
-/

namespace Courier.Link

open Outbound Reassembly

/-- The length of all registered messages together. -/
def registeredBytes : List Fact → Nat
  | [] => 0
  | .registered _ _ data _ :: log => data.length + registeredBytes log
  | _ :: log => registeredBytes log

theorem registeredBytes_le_cons (f : Fact) (log : List Fact) :
    registeredBytes log ≤ registeredBytes (f :: log) := by
  cases f with
  | registered => exact Nat.le_add_left _ _
  | _ => exact Nat.le_refl _

/-- Bytes of a message that some registered message has room for. -/
def Covered (log : List Fact) (n : UInt64) (size : Nat) : Prop :=
  ∃ dest data reliable, .registered n dest data reliable ∈ log ∧ size ≤ data.length

/-- A number stands for one message. -/
def Unambiguous (log : List Fact) : Prop :=
  ∀ n dest data r dest' data' r', .registered n dest data r ∈ log →
    .registered n dest' data' r' ∈ log → dest = dest' ∧ data = data' ∧ r = r'

theorem Unambiguous.tail {f : Fact} {log : List Fact} (h : Unambiguous (f :: log)) :
    Unambiguous log :=
  fun n dest data r dest' data' r' hm hm' =>
    h n dest data r dest' data' r' (List.mem_cons_of_mem f hm) (List.mem_cons_of_mem f hm')

/-- Incomplete messages of one sender, each no longer than the registered message of its
number, are together no longer than all registered messages. -/
theorem total_le_registeredBytes {log : List Fact} (hu : Unambiguous log) (here : SocketAddr)
    {msgs : List (Key × Partial)} (hd : (msgs.map (·.1)).Nodup) (hk : ∀ x ∈ msgs, x.1.1 = here)
    (hc : ∀ x ∈ msgs, Covered log x.1.2 x.2.extent) : total msgs ≤ registeredBytes log := by
  induction log generalizing msgs with
  | nil =>
    cases msgs with
    | nil => exact Nat.le_refl _
    | cons x msgs =>
      obtain ⟨_, _, _, hm, _⟩ := hc x List.mem_cons_self
      cases hm
  | cons f log ih =>
    -- a message whose number the fact does not register is covered by the facts before
    have hbefore : ∀ x ∈ msgs, (∀ dest data r, f ≠ .registered x.1.2 dest data r) →
        Covered log x.1.2 x.2.extent := by
      intro x hx hne
      obtain ⟨dest, data, r, hm, hle⟩ := hc x hx
      exact ⟨dest, data, r, (List.mem_cons.mp hm).resolve_left (hne dest data r).symm, hle⟩
    cases f with
    | registered n dest data r =>
      have hothers : total (msgs.filter (·.1 ≠ (here, n))) ≤ registeredBytes log := by
        refine ih hu.tail (hd.sublist (List.filter_sublist.map _))
          (fun x hx => hk x (List.mem_of_mem_filter hx)) fun x hx => ?_
        obtain ⟨hx, hne⟩ := List.mem_filter.mp hx
        refine hbefore x hx fun _ _ _ heq => ?_
        have hn : n = x.1.2 := (Fact.registered.inj heq).1
        exact of_decide_eq_true hne (Prod.ext (hk x hx) hn.symm)
      have hthis : ((msgs.lookup (here, n)).map (·.extent)).getD 0 ≤ data.length := by
        cases hl : msgs.lookup (here, n) with
        | none => exact Nat.zero_le _
        | some p =>
          obtain ⟨dest', data', r', hm, hle⟩ := hc _ ((lookup_eq_some_iff hd).mp hl)
          obtain ⟨_, rfl, _⟩ := hu n dest data r dest' data' r' List.mem_cons_self hm
          exact hle
      rw [total_filter_ne hd (here, n), registeredBytes]
      omega
    | _ => exact ih hu.tail hd hk fun x hx => hbefore x hx (by simp)

/-! ## What a message holds -/

section

variable {s : Setup} {l : Link} {o : Outgoing} {now : Instant}

/-- A chunk that was sent ends where its message does, or before. -/
theorem Near.covered (hn : Near s l) (ho : o ∈ l.sent) :
    Covered l.log o.header.sequence
      (o.header.index.toNat * s.far.chunkSize + o.payload.length) := by
  obtain ⟨m, i, resent, ⟨data, hreg, hcut⟩, hi, rfl⟩ := hn.genuine o ho
  refine ⟨m.dest, data, m.reliable, hreg, ?_⟩
  rw [Message.header_chunk, hcut.toNat_index hi]
  exact hcut.cut.end_le hi

theorem Near.sent_of_brought (hn : Near s l) (ho : o ∈ l.sent) {outcome : Outcome}
    {d : Option Received} {n : UInt64} {p : Partial} {i : Nat} {b : Bytes}
    (hb : Brought (.arrived o outcome d :: l.log) n p i b) :
    ∃ o' ∈ l.sent, o'.header.sequence = n ∧ o'.header.index.toNat = i ∧ o'.payload = b := by
  obtain ⟨o', outcome', d', hm, hs, _, _, hi, hb⟩ := hb
  rcases List.mem_cons.mp hm with heq | hm
  · cases heq
    exact ⟨o, ho, hs, hi, hb⟩
  · exact ⟨o', (hn.travelled o' outcome' d' hm).1, hs, hi, hb⟩

/-- A message whose chunks were all sent is no longer than the registered one. -/
theorem Near.covered_partial (hn : Near s l) (ho : o ∈ l.sent) {n : UInt64} {p : Partial}
    (hp : p.Fits s.far.chunkSize) (hpos : 0 < p.pieces.size) {outcome : Outcome}
    {d : Option Received}
    (hb : ∀ i b, p.pieces[i]? = some b → Brought (.arrived o outcome d :: l.log) n p i b) :
    Covered l.log n p.extent := by
  obtain ⟨i, b, hget, _, hextent⟩ := hp.exists_highest hpos
  obtain ⟨o', ho', rfl, rfl, rfl⟩ := hn.sent_of_brought ho (hb i b hget)
  exact hextent ▸ hn.covered ho'

/-- With one more chunk in them the buffers still hold no more than was registered. -/
theorem Far.buffered_le (hf : Far s l) (hn : Near s l) (ho : o ∈ l.sent)
    (ha : l.far.inbound.Acceptable (s.here, o.header.sequence) o.header o.payload now) :
    l.far.inbound.buffered +
        l.far.inbound.growth (s.here, o.header.sequence) o.header o.payload now ≤
      registeredBytes l.log := by
  have htarget := hf.table.total_target (s.here, o.header.sequence) o.header now
  have hextent :=
    extent_filled l.far.inbound (s.here, o.header.sequence) o.header o.payload now
  have hkept := hf.table.distinct
  have hrest : ∀ x ∈ l.far.inbound.messages.filter (·.1 ≠ (s.here, o.header.sequence)),
      l.far.inbound.find? x.1 = some x.2 := fun x hx =>
    (lookup_eq_some_iff hkept).mpr (List.mem_of_mem_filter hx)
  -- the messages as they are once the chunk is stored
  have hle : total (((s.here, o.header.sequence),
      l.far.inbound.filled (s.here, o.header.sequence) o.header o.payload now) ::
        l.far.inbound.messages.filter (·.1 ≠ (s.here, o.header.sequence))) ≤
      registeredBytes l.log := by
    refine total_le_registeredBytes hn.unique s.here ?distinct ?sender ?covered
    case distinct =>
      refine List.nodup_cons.mpr ⟨fun hm => ?_, hkept.sublist (List.filter_sublist.map _)⟩
      obtain ⟨x, hx, hxk⟩ := List.mem_map.mp hm
      simpa [hxk] using (List.mem_filter.mp hx).2
    case sender =>
      intro x hx
      rcases List.mem_cons.mp hx with rfl | hx
      · rfl
      · exact (hf.held _ _ (hrest x hx)).1
    case covered =>
      intro x hx
      rcases List.mem_cons.mp hx with rfl | hx
      · refine hn.covered_partial ho (hf.size ▸ hf.table.filled_fits (hn.valid ho) ha) ?_
          fun i b hi => hf.brought hn ho now .incomplete none hi
        rw [size_filled ha]
        exact Nat.succ_pos _
      · have hp := hf.table.partials _ _ (hrest x hx)
        exact hn.covered_partial ho (hf.size ▸ hp.toFits) hp.nonempty
          fun i b hi => ((hf.held _ _ (hrest x hx)).2 i b hi).cons (.arrived o .incomplete none)
  rw [total_cons, hextent] at hle
  omega

/-- With room for all that was registered, and messages that fit the machine, no chunk is
turned away. -/
theorem Far.not_crowded (hf : Far s l) (hn : Near s l) (ho : o ∈ l.sent) (now : Instant)
    (hroom : registeredBytes l.log ≤ s.far.maxPartialBytes)
    (hword : s.far.maxPartialBytes ≤ wordMax)
    (hsize : ∀ n dest data r, .registered n dest data r ∈ l.log → data.length ≤ sizeMax) :
    (l.insert s o now).1 ≠ .rejected .bufferLimit ∧ (l.insert s o now).1 ≠ .outOfRange := by
  have hins := hn.inserts ho now
  obtain ⟨dest, data, r, hreg, hstop⟩ := hn.covered ho
  have hdata := hsize _ dest data r hreg
  have hlimit := hf.limit
  generalize l.insert s o now = result at hins ⊢
  obtain ⟨outcome, table⟩ := result
  dsimp only at hins ⊢
  cases hins with
  | refused reason unfinished fault => exact (hf.not_refused hn ho fault).elim
  | crowded acceptable noRoom =>
    have := hf.buffered_le hn ho acceptable
    omega
  | beyond acceptable outside =>
    have := hf.buffered_le hn ho acceptable
    refine absurd ⟨?_, fun _ => by omega⟩ outside
    rw [hf.size]
    omega
  | _ => simp

end

end Courier.Link
