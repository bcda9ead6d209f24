import Courier.Polling
import Mathlib.Data.List.Basic

/-!
Any number of calls that poll the sources, with any answers and with anything that happens
between the calls. Main statement: together the calls ask the sources of one cycle over and
over, in order and without a gap. A call leaves off at the first source that yields, or at
the end of a cycle, so that two calls in a row without a message miss none that waits.
-/

namespace Courier.Polling

variable {σ μ : Type}

/-- The sources of one cycle in the order in which they are asked. -/
def period (ratio : Nat) (listening : Bool) : List Source :=
  List.replicate ratio .datagrams ++ if listening then [.inbound, .outbound] else [.outbound]

/-- Polls, and writes down which source was asked and what it answered. -/
def recorded (poll : Source → σ → Option μ × σ) (source : Source) :
    σ × List (Source × Option μ) → Option μ × σ × List (Source × Option μ)
  | (w, log) =>
    let (answer, w) := poll source w
    (answer, w, log ++ [(source, answer)])

/-- One call: the sources as it finds and as it leaves them, what it asked, what it yielded,
and where the next call goes on. -/
structure Round (σ μ : Type) where
  before : σ
  after : σ
  asked : List (Source × Option μ)
  result : Option μ
  turn : Turn

def round (ratio : Nat) (listening : Bool) (poll : Source → σ → Option μ × σ) (s : Turn)
    (w : σ) : Round σ μ where
  before := w
  after := (pollRound ratio listening poll s w).2.2
  asked := (pollRound ratio listening (recorded poll) s (w, [])).2.2.2
  result := (pollRound ratio listening poll s w).1
  turn := (pollRound ratio listening poll s w).2.1

/-- One call after the other, each after a change to the sources. -/
def rounds (ratio : Nat) (listening : Bool) (poll : Source → σ → Option μ × σ) :
    List (σ → σ) → Turn → σ → List (Round σ μ)
  | [], _, _ => []
  | change :: changes, s, w =>
    let c := round ratio listening poll s (change w)
    c :: rounds ratio listening poll changes c.turn c.after

/-- All sources that some calls asked, in order. -/
def polled (calls : List (Round σ μ)) : List Source := calls.flatMap fun c => c.asked.map (·.1)

/-- A message waits at a source. -/
def Waits (poll : Source → σ → Option μ × σ) (source : Source) (w : σ) : Prop :=
  (poll source w).1.isSome

/-- What waits at a source stays there until the source is asked: sources without a message
take none from others, and what happens between the calls takes none either. -/
structure Patient (poll : Source → σ → Option μ × σ) (changes : List (σ → σ)) : Prop where
  asked : ∀ source other w, Waits poll source w → (poll other w).1 = none →
    Waits poll source (poll other w).2
  between : ∀ change ∈ changes, ∀ source w, Waits poll source w → Waits poll source (change w)

/-- What all calls have in common. -/
structure Scheduled (ratio : Nat) (listening : Bool) (poll : Source → σ → Option μ × σ)
    (changes : List (σ → σ)) (calls : List (Round σ μ)) : Prop where
  periodic : ∃ n, polled calls <+: (List.replicate n (period ratio listening)).flatten
  /-- a call yields the message of the first source that has one -/
  yields : ∀ c ∈ calls, ∀ m, c.result = some m → ∃ vain source,
    c.asked = vain ++ [(source, some m)] ∧ ∀ x ∈ vain, x.2 = none
  /-- a call without a message ends with the cycle -/
  ends : ∀ early c late, calls = early ++ c :: late → c.result = none →
    c.turn = .done ∧ (∀ x ∈ c.asked, x.2 = none) ∧
      ∃ n, polled (early ++ [c]) = (List.replicate n (period ratio listening)).flatten
  /-- after it a call without a message asks all sources -/
  asksAll : ∀ early c c' late, calls = early ++ c :: c' :: late →
    c.result = none → c'.result = none →
    c'.asked = (period ratio listening).map fun source => (source, none)
  missesNone : Patient poll changes → ∀ early c c' late, calls = early ++ c :: c' :: late →
    c.result = none → c'.result = none → ∀ source ∈ period ratio listening,
    ¬ Waits poll source c.before ∧ ¬ Waits poll source c'.before

/-! ## One call -/

/-- What is asked from a turn on: sources without a message, then one that yields or the end
of the cycle. -/
inductive Asks (ratio : Nat) (listening : Bool) (poll : Source → σ → Option μ × σ) :
    Turn → σ → List (Source × Option μ) → Option μ → Turn → σ → Prop
  | done {w : σ} : Asks ratio listening poll .done w [] none .done w
  | yields {s : Turn} {source : Source} {w w' : σ} {m : μ} (here : s.source = some source)
      (answer : poll source w = (some m, w')) :
      Asks ratio listening poll s w [(source, some m)] (some m) (s.next ratio listening) w'
  | vain {s s' : Turn} {source : Source} {w w' w'' : σ} {asked : List (Source × Option μ)}
      {result : Option μ} (here : s.source = some source) (answer : poll source w = (none, w'))
      (rest : Asks ratio listening poll (s.next ratio listening) w' asked result s' w'') :
      Asks ratio listening poll s w ((source, none) :: asked) result s' w''

/-- The sources that are asked from a turn to the end of its cycle. -/
def ahead (ratio : Nat) (listening : Bool) : Turn → List Source
  | .datagrams n => List.replicate (ratio + 1 - n) .datagrams ++
      if listening then [.inbound, .outbound] else [.outbound]
  | .inbound => [.inbound, .outbound]
  | .outbound => [.outbound]
  | .done => []

/-- A turn of the cycle. -/
def OnCycle (ratio : Nat) : Turn → Prop
  | .datagrams n => n ≤ ratio
  | _ => True

section

variable {ratio : Nat} {listening : Bool} {poll : Source → σ → Option μ × σ} {s s' : Turn}
  {w w' : σ} {asked : List (Source × Option μ)} {result : Option μ} {source : Source}

theorem source_eq_none_iff : s.source = none ↔ s = .done := by
  cases s <;> simp [Turn.source]

theorem rank_eq_zero_iff : s.rank ratio = 0 ↔ s = .done := by
  cases s <;> simp [Turn.rank]

/-- The bound on the number of polls is never reached. -/
theorem asks_pollUpTo (listening : Bool) (poll : Source → σ → Option μ × σ) (w : σ) {fuel : Nat}
    (hfuel : s.rank ratio ≤ fuel) :
    ∃ asked, Asks ratio listening poll s w asked (pollUpTo ratio listening poll fuel s w).1
        (pollUpTo ratio listening poll fuel s w).2.1 (pollUpTo ratio listening poll fuel s w).2.2 ∧
      ∀ log, (pollUpTo ratio listening (recorded poll) fuel s (w, log)).2.2.2 = log ++ asked := by
  induction fuel generalizing s w with
  | zero =>
    obtain rfl := rank_eq_zero_iff.mp (Nat.le_zero.mp hfuel)
    exact ⟨[], .done, fun log => (List.append_nil log).symm⟩
  | succ fuel ih =>
    cases hs : s.source with
    | none =>
      obtain rfl := source_eq_none_iff.mp hs
      exact ⟨[], .done, fun log => (List.append_nil log).symm⟩
    | some source =>
      have hne : s ≠ .done := fun hdone => by simp [source_eq_none_iff.mpr hdone] at hs
      have hlt := Turn.rank_next_lt ratio listening hne
      simp only [pollUpTo, hs, recorded]
      rcases hp : poll source w with ⟨answer, w'⟩
      cases answer with
      | some m => exact ⟨[(source, some m)], .yields hs hp, fun log => rfl⟩
      | none =>
        obtain ⟨asked, hasks, hlog⟩ := ih w' (Nat.le_of_lt_succ (Nat.lt_of_lt_of_le hlt hfuel))
        refine ⟨(source, none) :: asked, .vain hs hp hasks, fun log => ?_⟩
        dsimp only
        rw [hlog, List.append_assoc, List.singleton_append]

/-- Where a call begins. -/
def restart (s : Turn) : Turn := if s = .done then .start else s

theorem asks_round (ratio : Nat) (listening : Bool) (poll : Source → σ → Option μ × σ) (s : Turn)
    (w : σ) :
    Asks ratio listening poll (restart s) w (round ratio listening poll s w).asked
      (round ratio listening poll s w).result (round ratio listening poll s w).turn
      (round ratio listening poll s w).after := by
  obtain ⟨asked, hasks, hlog⟩ := asks_pollUpTo listening poll w
    (Nat.le_refl ((restart s).rank ratio))
  have heq : (round ratio listening poll s w).asked = asked := hlog []
  rw [heq]
  exact hasks

theorem Asks.of_some {m : μ} (h : Asks ratio listening poll s w asked result s' w')
    (hr : result = some m) :
    ∃ vain source, asked = vain ++ [(source, some m)] ∧ ∀ x ∈ vain, x.2 = none := by
  induction h with
  | done => cases hr
  | @yields _ source =>
    cases hr
    exact ⟨[], source, rfl, by simp⟩
  | @vain _ _ source _ _ _ _ _ _ _ _ ih =>
    obtain ⟨vain, found, rfl, hvain⟩ := ih hr
    exact ⟨(source, none) :: vain, found, rfl, by simpa using hvain⟩

theorem Asks.of_none (h : Asks ratio listening poll s w asked result s' w')
    (hr : result = none) : s' = .done ∧ ∀ x ∈ asked, x.2 = none := by
  induction h with
  | done => exact ⟨rfl, by simp⟩
  | yields => cases hr
  | vain _ _ _ ih =>
    obtain ⟨hdone, hvain⟩ := ih hr
    exact ⟨hdone, by simpa using hvain⟩

/-- What lies ahead is the source of the turn, and then what lies ahead of the next turn. -/
theorem ahead_eq_cons (listening : Bool) (hon : OnCycle ratio s) (hs : s.source = some source) :
    ahead ratio listening s = source :: ahead ratio listening (s.next ratio listening) ∧
      OnCycle ratio (s.next ratio listening) := by
  cases s with
  | datagrams n =>
    cases hs
    have hn : n ≤ ratio := hon
    have hmore : ratio + 1 - n = ratio - n + 1 := by omega
    by_cases hlt : n < ratio
    · have hnext : ratio + 1 - (n + 1) = ratio - n := by omega
      rw [Turn.next, if_pos hlt, ahead, ahead, hmore, hnext]
      exact ⟨rfl, hlt⟩
    · have hzero : ratio - n = 0 := by omega
      rw [Turn.next, if_neg hlt, ahead, hmore, hzero]
      cases listening <;> exact ⟨rfl, trivial⟩
  | inbound | outbound =>
    cases hs
    exact ⟨rfl, trivial⟩
  | done => cases hs

/-- A call asks what lies ahead, without a gap. -/
theorem Asks.ahead_eq (h : Asks ratio listening poll s w asked result s' w')
    (hon : OnCycle ratio s) :
    ahead ratio listening s = asked.map (·.1) ++ ahead ratio listening s' ∧ OnCycle ratio s' := by
  induction h with
  | done => exact ⟨rfl, trivial⟩
  | yields here => exact ahead_eq_cons listening hon here
  | vain here _ _ ih =>
    obtain ⟨heq, hon'⟩ := ahead_eq_cons listening hon here
    obtain ⟨hrest, hon''⟩ := ih hon'
    rw [heq, hrest]
    exact ⟨rfl, hon''⟩

/-- A call without a message left what waited where it was, and nothing waited ahead of it. -/
theorem Asks.not_waits {changes : List (σ → σ)} (hp : Patient poll changes)
    (h : Asks ratio listening poll s w asked result s' w') (hr : result = none)
    (hw : Waits poll source w) : source ∉ asked.map (·.1) ∧ Waits poll source w' := by
  induction h with
  | done => exact ⟨List.not_mem_nil, hw⟩
  | yields => cases hr
  | @vain _ _ other w w' _ _ _ _ answer _ ih =>
    have hne : source ≠ other := by
      rintro rfl
      rw [Waits, answer] at hw
      cases hw
    have hstill : Waits poll source w' := by
      have := hp.asked source other w hw (by rw [answer])
      rwa [answer] at this
    obtain ⟨hnot, hend⟩ := ih hr hstill
    exact ⟨List.not_mem_cons_of_ne_of_not_mem hne hnot, hend⟩

end

/-! ## Many calls -/

section

variable {ratio : Nat} {listening : Bool} {poll : Source → σ → Option μ × σ} {s : Turn} {w : σ}
  {changes : List (σ → σ)} {early late : List (Round σ μ)} {c c' : Round σ μ}

theorem ahead_start : ahead ratio listening .start = period ratio listening := rfl

theorem onCycle_restart (hr : 1 ≤ ratio) (hon : OnCycle ratio s) : OnCycle ratio (restart s) := by
  unfold restart
  split
  · exact hr
  · exact hon

/-- A call that begins after the end of a cycle has a whole cycle ahead. -/
theorem exists_ahead_restart (ratio : Nat) (listening : Bool) (s : Turn) :
    ∃ n, ahead ratio listening (restart s) =
      ahead ratio listening s ++ (List.replicate n (period ratio listening)).flatten := by
  unfold restart
  split
  · rename_i hs
    refine ⟨1, ?_⟩
    rw [hs, ahead_start]
    simp [ahead]
  · exact ⟨0, by simp⟩

/-- Up to any call the sources of the cycle were asked again and again, with what lies ahead
of the next call left to ask. -/
theorem exists_polled_eq (hr : 1 ≤ ratio) (hon : OnCycle ratio s)
    (hc : rounds ratio listening poll changes s w = early ++ c :: late) :
    OnCycle ratio c.turn ∧ ∃ n, polled (early ++ [c]) ++ ahead ratio listening c.turn =
      ahead ratio listening s ++ (List.replicate n (period ratio listening)).flatten := by
  induction changes generalizing s w early with
  | nil => simp [rounds] at hc
  | cons change changes ih =>
    rw [rounds] at hc
    obtain ⟨heq, hon'⟩ := (asks_round ratio listening poll s (change w)).ahead_eq
      (onCycle_restart hr hon)
    obtain ⟨n, hn⟩ := exists_ahead_restart ratio listening s
    rw [hn] at heq
    cases early with
    | nil =>
      obtain ⟨rfl, _⟩ := List.cons.inj hc
      exact ⟨hon', n, by rw [heq]; simp [polled]⟩
    | cons first early =>
      obtain ⟨rfl, hrest⟩ := List.cons.inj hc
      obtain ⟨hlast, k, hk⟩ := ih hon' hrest
      refine ⟨hlast, n + k, ?_⟩
      rw [List.replicate_add, List.flatten_append, ← List.append_assoc, heq, List.append_assoc,
        ← hk]
      simp [polled]

/-- Each call goes on where the one before it left off. -/
theorem exists_asks (hc : rounds ratio listening poll changes s w = early ++ c :: late) :
    ∃ s' rest, Asks ratio listening poll (restart s') c.before c.asked c.result c.turn c.after ∧
      rest ⊆ changes ∧ late = rounds ratio listening poll rest c.turn c.after := by
  induction changes generalizing s w early with
  | nil => simp [rounds] at hc
  | cons change changes ih =>
    rw [rounds] at hc
    cases early with
    | nil =>
      obtain ⟨rfl, rfl⟩ := List.cons.inj hc
      exact ⟨s, changes, asks_round ratio listening poll s (change w),
        List.subset_cons_self _ _, rfl⟩
    | cons first early =>
      obtain ⟨rfl, hrest⟩ := List.cons.inj hc
      obtain ⟨s', rest, hasks, hsub, hlate⟩ := ih hrest
      exact ⟨s', rest, hasks, List.subset_cons_of_subset _ hsub, hlate⟩

/-- A call after one without a message begins a cycle. -/
theorem exists_asks_next (hc : rounds ratio listening poll changes s w = early ++ c :: c' :: late)
    (hnone : c.result = none) : ∃ s', ∃ change ∈ changes,
      Asks ratio listening poll s' c.before c.asked c.result c.turn c.after ∧
      c'.before = change c.after ∧
      Asks ratio listening poll .start c'.before c'.asked c'.result c'.turn c'.after := by
  obtain ⟨s', rest, hasks, hsub, hlate⟩ := exists_asks hc
  cases rest with
  | nil => simp [rounds] at hlate
  | cons change rest =>
    rw [rounds] at hlate
    obtain ⟨rfl, _⟩ := List.cons.inj hlate
    refine ⟨restart s', change, hsub List.mem_cons_self, hasks, rfl, ?_⟩
    rw [(hasks.of_none hnone).1]
    exact asks_round ratio listening poll .done (change c.after)

/-- All sources of a cycle are asked by a call without a message that begins it. -/
theorem Asks.whole_cycle {asked : List (Source × Option μ)} {result : Option μ} {s' : Turn}
    {w' : σ} (h : Asks ratio listening poll .start w asked result s' w') (hr : 1 ≤ ratio)
    (hnone : result = none) : asked.map (·.1) = period ratio listening := by
  have heq := (h.ahead_eq (show OnCycle ratio .start from hr)).1
  rw [(h.of_none hnone).1, ahead_start] at heq
  exact (heq.trans (List.append_nil _)).symm

end

/-- However the sources answer, the calls keep to the schedule. -/
theorem scheduled_rounds {ratio : Nat} (hr : 1 ≤ ratio) (listening : Bool)
    (poll : Source → σ → Option μ × σ) (changes : List (σ → σ)) (w : σ) :
    Scheduled ratio listening poll changes (rounds ratio listening poll changes .start w) where
  periodic := by
    cases hlast : (rounds ratio listening poll changes .start w).getLast? with
    | none => exact ⟨0, by simp [List.getLast?_eq_none_iff.mp hlast, polled]⟩
    | some c =>
      obtain ⟨early, hc⟩ := List.getLast?_eq_some_iff.mp hlast
      obtain ⟨_, n, hn⟩ := exists_polled_eq hr (show OnCycle ratio .start from hr) hc
      refine ⟨n + 1, ahead ratio listening c.turn, ?_⟩
      rw [hc, hn, ahead_start, List.replicate_succ, List.flatten_cons]
  yields := by
    intro c hc m hm
    obtain ⟨early, late, hsplit⟩ := List.append_of_mem hc
    obtain ⟨_, _, hasks, _⟩ := exists_asks hsplit
    exact hasks.of_some hm
  ends := by
    intro early c late hc hnone
    obtain ⟨_, _, hasks, _⟩ := exists_asks hc
    obtain ⟨hdone, hvain⟩ := hasks.of_none hnone
    obtain ⟨_, n, hn⟩ := exists_polled_eq hr (show OnCycle ratio .start from hr) hc
    refine ⟨hdone, hvain, n + 1, ?_⟩
    rw [hdone, ahead, List.append_nil] at hn
    rw [hn, ahead_start, List.replicate_succ, List.flatten_cons]
  asksAll := by
    intro early c c' late hc hnone hnone'
    obtain ⟨_, _, _, _, _, hnext⟩ := exists_asks_next hc hnone
    rw [← hnext.whole_cycle hr hnone', List.map_map]
    have hsame : ∀ x ∈ c'.asked, x = (x.1, none) := fun x hx =>
      Prod.ext rfl ((hnext.of_none hnone').2 x hx)
    exact (List.map_id _).symm.trans (List.map_congr_left hsame)
  missesNone := by
    intro hp early c c' late hc hnone hnone' source hsource
    obtain ⟨_, change, hchange, hasks, hbefore, hnext⟩ := exists_asks_next hc hnone
    have hnot : ¬ Waits poll source c'.before := fun hw =>
      (hnext.not_waits hp hnone' hw).1 (hnext.whole_cycle hr hnone' ▸ hsource)
    refine ⟨fun hw => hnot ?_, hnot⟩
    rw [hbefore]
    exact hp.between change hchange source c.after (hasks.not_waits hp hnone hw).2

/-- Sources that are queues. -/
def pull (source : Source) (w : Source → List Nat) : Option Nat × (Source → List Nat) :=
  ((w source).head?, fun other => if other = source then (w other).tail else w other)

/-- A message comes to a source. -/
def put (source : Source) (m : Nat) (w : Source → List Nat) : Source → List Nat :=
  fun other => if other = source then w other ++ [m] else w other

theorem patient_pull : Patient pull [id, put .inbound 7, id, id] where
  asked source other w hw hnone := by
    have hother : w other = [] := List.head?_eq_none_iff.mp hnone
    have hsame : (pull other w).2 source = w source := by
      by_cases h : source = other <;> simp [pull, h, hother]
    unfold Waits pull at hw ⊢
    exact hsame ▸ hw
  between change hchange source w hw := by
    have hput : Waits pull source (put .inbound 7 w) := by
      unfold Waits pull put at *
      by_cases h : source = .inbound <;> simp_all
    simp only [List.mem_cons, List.not_mem_nil, or_false] at hchange
    rcases hchange with rfl | rfl | rfl | rfl
    · exact hw
    · exact hput
    · exact hw
    · exact hw

/-- Four calls, and a message that arrives after the first. -/
theorem scheduled_lateMessage :
    1 ≤ 2 ∧ Patient pull [id, put .inbound 7, id, id] ∧
      Scheduled 2 true pull [id, put .inbound 7, id, id]
        (rounds 2 true pull [id, put .inbound 7, id, id] .start fun _ => []) ∧
      (rounds 2 true pull [id, put .inbound 7, id, id] .start fun _ => []).map
        (fun c => (c.asked.map (·.1), c.result)) =
        [([.datagrams, .datagrams, .inbound, .outbound], none),
          ([.datagrams, .datagrams, .inbound], some 7), ([.outbound], none),
          ([.datagrams, .datagrams, .inbound, .outbound], none)] :=
  ⟨by decide, patient_pull, scheduled_rounds (by decide) true pull _ _, rfl⟩

end Courier.Polling
