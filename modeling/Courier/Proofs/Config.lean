import Courier.Config

/-!
Accepted settings: `validate_eq_ok_iff` says which they are, and
`validate_eq_windowOutOfRange_iff` for which settings there is no answer.
-/

namespace Courier.Config

/-- Settings that meet all rules. -/
structure Sound (c : Config) : Prop where
  header_lt : Chunk.Header.size < c.packetSize
  packetSize_le : c.packetSize ≤ maxPacketSize
  maxFlight_pos : 0 < c.maxFlight
  tickThreshold_le : c.resendTickThreshold ≤ c.resendThreshold
  window_le_max : c.resendInterval.nanos * c.resendThreshold ≤ Duration.maxNanos
  /-- a completed message is remembered until its sender gives up -/
  window_le : c.resendInterval.nanos * c.resendThreshold ≤ c.completedRetention.nanos
  chunkSize_le : c.chunkSize ≤ c.maxPartialBytes
  poolSize_pos : 0 < c.poolSize
  polls_pos : 0 < c.datagramPollRatio

/-- One rule after another. -/
theorem guard_eq_ok_iff {p : Prop} [Decidable p] (e : ConfigError)
    (rest : Except ConfigError Unit) :
    (if p then .error e else rest) = .ok () ↔ ¬ p ∧ rest = .ok () := by
  by_cases hp : p <;> simp [hp]

theorem guard_eq_error_iff {p : Prop} [Decidable p] (e e' : ConfigError)
    (rest : Except ConfigError Unit) :
    (if p then .error e else rest) = .error e' ↔ p ∧ e = e' ∨ ¬ p ∧ rest = .error e' := by
  by_cases hp : p <;> simp [hp]

theorem validate_eq_ok_iff (c : Config) : c.validate = .ok () ↔ c.Sound := by
  unfold validate Duration.times?
  simp only [bind, Except.bind, pure, Except.pure, throw, throwThe, MonadExceptOf.throw,
    guard_eq_ok_iff]
  by_cases hmax : c.resendInterval.nanos * c.resendThreshold ≤ Duration.maxNanos
  · simp only [if_pos hmax, guard_eq_ok_iff]
    constructor
    · rintro ⟨hheader, hpacket, hflight, hticks, hwindow, hchunk, hpool, hpolls, _⟩
      exact ⟨by omega, by omega, by omega, by omega, hmax, by omega, by omega, by omega, by omega⟩
    · rintro ⟨hheader, hpacket, hflight, hticks, _, hwindow, hchunk, hpool, hpolls⟩
      exact ⟨by omega, by omega, by omega, by omega, by omega, by omega, by omega, by omega,
        trivial⟩
  · simp only [if_neg hmax]
    constructor
    · rintro ⟨_, _, _, _, h⟩
      cases h
    · intro h
      exact absurd h.window_le_max hmax

/-- The check of the retention halts just if the rules before it hold and the resend window is
longer than any duration. -/
theorem validate_eq_windowOutOfRange_iff (c : Config) :
    c.validate = .error .windowOutOfRange ↔
      Chunk.Header.size < c.packetSize ∧ c.packetSize ≤ maxPacketSize ∧ 0 < c.maxFlight ∧
        c.resendTickThreshold ≤ c.resendThreshold ∧
        Duration.maxNanos < c.resendInterval.nanos * c.resendThreshold := by
  unfold validate Duration.times?
  simp only [bind, Except.bind, pure, Except.pure, throw, throwThe, MonadExceptOf.throw,
    guard_eq_error_iff, reduceCtorEq, and_false, false_or]
  by_cases hmax : c.resendInterval.nanos * c.resendThreshold ≤ Duration.maxNanos
  · simp [if_pos hmax, guard_eq_error_iff, Nat.not_lt.mpr hmax]
  · simp only [if_neg hmax, Nat.not_le.mp hmax, and_true]
    omega

/-- Past the first rule the size of a chunk is what the header leaves of a packet. -/
theorem chunkSize_add_of_validate {c : Config}
    (h : c.validate ≠ .error (.packetBelowHeader c.packetSize)) :
    c.chunkSize + Chunk.Header.size = c.packetSize := by
  refine Nat.sub_add_cancel (Nat.le_of_not_le fun hle => h ?_)
  unfold validate
  rw [if_pos hle]
  rfl

end Courier.Config
