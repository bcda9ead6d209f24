import Courier.Proofs.Reassembly.Calls

/-!
How long a completed message is remembered, over any calls in the order of time and with one
retention. Main statement: until the first purge at the end of the retention every chunk of the
message is a duplicate, so that it is not completed again before.
-/

namespace Courier.Reassembly

namespace Call

def now : Call → Instant
  | .arrive _ _ _ now => now
  | .purge now _ _ => now

/-- What a chunk is answered. -/
def outcome? (r : Reassembly) : Call → Option Outcome
  | .arrive sender h payload now => some (r.insert sender h payload now).1
  | .purge .. => none

/-- A purge at an instant or after it. -/
def purgesFrom (t : Instant) : Call → Bool
  | .arrive .. => false
  | .purge now _ _ => t ≤ now

end Call

/-- Calls in the order of time, whose purges have one retention. -/
structure Orderly (retention : Duration) (calls : List Call) : Prop where
  times : calls.Pairwise fun c c' => c.now ≤ c'.now
  retained : ∀ now timeout d, Call.purge now timeout d ∈ calls → d = retention

variable {r : Reassembly} {retention : Duration} {key : Key} {since : Instant} {c : Call}
  {calls : List Call}

/-! ## One call -/

/-- A chunk that completes its message is remembered. -/
theorem lookup_after_of_complete {data : Bytes} (hkey : c.key? = some key)
    (hc : c.outcome? r = some (.complete data)) :
    (r.after c).completed.lookup key = some c.now := by
  cases c with
  | purge => cases hkey
  | arrive sender h payload now =>
    cases hkey
    have houtcome : (r.insert sender h payload now).1 = .complete data := Option.some.inj hc
    rcases inserts_or_outOfRange r sender h payload now with hi | heq
    · exact hi.lookup_of_complete houtcome
    · rw [heq] at houtcome
      cases houtcome

/-- A message that is remembered stays so, unless its time is over at a purge. -/
theorem Tallied.lookup_after (hr : r.Tallied) (hlookup : r.completed.lookup key = some since)
    (hsince : since ≤ c.now) (hretained : ∀ now timeout d, c = .purge now timeout d → d = retention)
    (hyoung : c.purgesFrom (since + retention.nanos) = false) :
    (r.after c).completed.lookup key = some since := by
  cases c with
  | arrive sender h payload now =>
    show (r.insert sender h payload now).2.completed.lookup key = some since
    rcases inserts_or_outOfRange r sender h payload now with hi | heq
    · exact hi.lookup_of_some hlookup
    · rw [heq]
      exact hlookup
  | purge now timeout d =>
    obtain rfl := hretained now timeout d rfl
    have hnow : ¬ since + d.nanos ≤ now := of_decide_eq_false hyoung
    have hage : now - since < d.nanos := Nat.sub_lt_left_of_lt_add hsince (Nat.not_le.mp hnow)
    show (r.purge now timeout d).2.completed.lookup key = some since
    rw [hr.lookup_purge, hlookup, Option.filter_some, if_pos (decide_eq_true hage)]

/-- A chunk of a message that is remembered is a duplicate. -/
theorem outcome?_of_lookup (hlookup : r.completed.lookup key = some since)
    (hkey : c.key? = some key) : c.outcome? r = some .duplicate := by
  cases c with
  | purge => cases hkey
  | arrive sender h payload now =>
    cases hkey
    have hdone : r.isCompleted (sender, h.sequence) = true := by
      rw [isCompleted, hlookup, Option.isSome_some]
    show some (r.insert sender h payload now).1 = _
    unfold insert
    dsimp only
    rw [if_pos hdone]

/-! ## All calls -/

theorem Tallied.foldl_after (hr : r.Tallied) (calls : List Call) :
    (calls.foldl Reassembly.after r).Tallied := by
  induction calls generalizing r with
  | nil => exact hr
  | cons c calls ih => exact ih (hr.after c)

theorem Tallied.lookup_foldl (hr : r.Tallied) (hlookup : r.completed.lookup key = some since)
    (hsince : ∀ c ∈ calls, since ≤ c.now)
    (hretained : ∀ now timeout d, Call.purge now timeout d ∈ calls → d = retention)
    (hyoung : ∀ c ∈ calls, c.purgesFrom (since + retention.nanos) = false) :
    (calls.foldl Reassembly.after r).completed.lookup key = some since := by
  induction calls generalizing r with
  | nil => exact hlookup
  | cons c calls ih =>
    obtain ⟨hfirst, hlater⟩ := List.forall_mem_cons.mp hsince
    obtain ⟨hyoung₁, hyoung₂⟩ := List.forall_mem_cons.mp hyoung
    have hstep := hr.lookup_after hlookup hfirst
      (fun now timeout d hc => hretained now timeout d (hc ▸ List.mem_cons_self)) hyoung₁
    exact ih (hr.after c) hstep hlater
      (fun now timeout d hc => hretained now timeout d (List.mem_cons_of_mem _ hc)) hyoung₂

theorem now_le_of_purgesFrom {t : Instant} (h : c.purgesFrom t = true) : t ≤ c.now := by
  cases c with
  | arrive => cases h
  | purge => exact of_decide_eq_true h

section

variable {cs limit : Nat} {before between : List Call} {c₁ c₂ : Call} {data : Bytes}

/-- A completed message is remembered until the first purge at the end of its time. -/
theorem Orderly.lookup_afterAll (ho : Orderly retention (before ++ c₁ :: between))
    (hkey : c₁.key? = some key)
    (hc : c₁.outcome? (afterAll cs limit before) = some (.complete data))
    (hyoung : ∀ c ∈ between, c.purgesFrom (c₁.now + retention.nanos) = false) :
    (afterAll cs limit (before ++ c₁ :: between)).completed.lookup key = some c₁.now := by
  obtain ⟨_, hfollow, _⟩ := List.pairwise_append.mp ho.times
  have htallied : (afterAll cs limit before).Tallied :=
    (tallied_empty cs limit).foldl_after before
  rw [afterAll_append, List.foldl_cons]
  refine (htallied.after c₁).lookup_foldl (lookup_after_of_complete hkey hc)
    (List.pairwise_cons.mp hfollow).1 (fun now timeout d hm => ?_) hyoung
  exact ho.retained now timeout d (List.mem_append_right _ (List.mem_cons_of_mem _ hm))

theorem Orderly.of_append {calls' : List Call} (ho : Orderly retention (calls ++ calls')) :
    Orderly retention calls where
  times := (List.pairwise_append.mp ho.times).1
  retained now timeout d hm := ho.retained now timeout d (List.mem_append_left _ hm)

/-- A message that was completed is not completed again within the retention, nor before a purge
at the end of it. Until this purge each of its chunks is a duplicate, and those before the end
of the retention forget nothing. -/
theorem retained_run (ho : Orderly retention (before ++ c₁ :: (between ++ [c₂])))
    (hkey : c₁.key? = some key)
    (hc : c₁.outcome? (afterAll cs limit before) = some (.complete data)) :
    let r := afterAll cs limit (before ++ c₁ :: between)
    let expiry := c₁.now + retention.nanos
    (c₂.key? = some key → (∀ c ∈ between, c.purgesFrom expiry = false) →
        c₂.outcome? r = some .duplicate) ∧
      (∀ data', c₂.key? = some key → c₂.outcome? r = some (.complete data') →
        expiry ≤ c₂.now ∧ ∃ early p late, between = early ++ p :: late ∧
          p.purgesFrom expiry = true ∧ ∀ c ∈ early, c.purgesFrom expiry = false) ∧
      (c₂.now < expiry → (r.after c₂).isCompleted key = true) := by
  intro r expiry
  have hwhole : before ++ c₁ :: (between ++ [c₂]) = (before ++ c₁ :: between) ++ [c₂] := by simp
  have hduplicate (hkey₂ : c₂.key? = some key)
      (hyoung : ∀ c ∈ between, c.purgesFrom expiry = false) : c₂.outcome? r = some .duplicate :=
    outcome?_of_lookup ((hwhole ▸ ho).of_append.lookup_afterAll hkey hc hyoung) hkey₂
  have hbetween : ∀ c ∈ between, c.now ≤ c₂.now := fun c hm =>
    (List.pairwise_append.mp (hwhole ▸ ho.times)).2.2 c
      (List.mem_append_right _ (List.mem_cons_of_mem _ hm)) c₂ List.mem_cons_self
  refine ⟨hduplicate, fun data' hkey₂ hcomplete => ?_, fun hsoon => ?_⟩
  · cases hfind : between.find? (·.purgesFrom expiry) with
    | none =>
      have hyoung : ∀ c ∈ between, c.purgesFrom expiry = false := by
        simpa using List.find?_eq_none.mp hfind
      cases (hduplicate hkey₂ hyoung).symm.trans hcomplete
    | some p =>
      obtain ⟨hp, early, late, rfl, hearly⟩ := List.find?_eq_some_iff_append.mp hfind
      have hlater := hbetween p (List.mem_append_right _ List.mem_cons_self)
      exact ⟨Nat.le_trans (now_le_of_purgesFrom hp) hlater, early, p, late, rfl, hp,
        by simpa using hearly⟩
  · -- all calls up to this one come before the end of the retention
    have hyoung : ∀ c ∈ between ++ [c₂], c.purgesFrom expiry = false := fun c hm => by
      have hle : c.now ≤ c₂.now := by
        rcases List.mem_append.mp hm with hold | hlast
        · exact hbetween c hold
        · exact Nat.le_of_eq (congrArg Call.now (List.mem_singleton.mp hlast))
      exact Bool.eq_false_iff.mpr fun hp =>
        Nat.not_lt.mpr (Nat.le_trans (now_le_of_purgesFrom hp) hle) hsoon
    have hlookup := ho.lookup_afterAll hkey hc hyoung
    rw [hwhole, afterAll_append] at hlookup
    show ((r.after c₂).completed.lookup key).isSome = true
    rw [show (r.after c₂).completed.lookup key = some c₁.now from hlookup, Option.isSome_some]

end

/-- A chunk that is a whole message. -/
def single (payload : Bytes) (now : Instant) : Call :=
  .arrive thisPeer ⟨.data, 0, 1, 0⟩ payload now

/-- Copies of the chunk, and purges just before the end of the retention and at it. -/
def lateCopies : List Call :=
  [single [7] 3, .purge 9 ⟨10⟩ ⟨10⟩, single [7] 9, .purge 10 ⟨10⟩ ⟨10⟩]

/-- At the end of the retention a purge forgets the message, and its next copy is delivered. -/
theorem retained_boundary :
    (single [7] 0).outcome? (afterAll 1 9 []) = some (.complete [7]) ∧
    (single [7] 10).outcome? (afterAll 1 9 ([] ++ single [7] 0 :: lateCopies)) =
      some (.complete [7]) ∧
    ∃ early p late, lateCopies = early ++ p :: late ∧ p.purgesFrom (0 + 10) = true ∧
      ∀ c ∈ early, c.purgesFrom (0 + 10) = false := by
  have hc : (single [7] 0).outcome? (afterAll 1 9 []) = some (.complete [7]) := by decide
  have hagain : (single [7] 10).outcome? (afterAll 1 9 ([] ++ single [7] 0 :: lateCopies)) =
      some (.complete [7]) := by decide
  have ho : Orderly ⟨10⟩ ([] ++ single [7] 0 :: (lateCopies ++ [single [7] 10])) := by
    refine ⟨by simp [single, lateCopies, Call.now], fun now timeout d hm => ?_⟩
    simp [single, lateCopies] at hm
    rcases hm with ⟨_, _, hd⟩ | ⟨_, _, hd⟩ <;> exact hd
  have hkey : (single [7] 0).key? = some (thisPeer, 0) := rfl
  obtain ⟨_, hretained, _⟩ := retained_run ho hkey hc
  exact ⟨hc, hagain, (hretained [7] rfl hagain).2⟩

end Courier.Reassembly
