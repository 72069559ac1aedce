import UnknownOS.Core.While

/-!
# The calibration delay

A translation of `acpi_pm_delay_ms`, with the values that the reads of the port
return as a sequence.  The counter has 24 bits; a poll at which it has wrapped
counts one tick too few, and the number of ticks to wait for is a product
modulo `2 ^ 32`.
-/

namespace UnknownOS.LapicTimer

open UnknownOS.Loops

/-- `ACPI_PM_FREQ`. -/
def acpiPmFreq : BitVec 32 := 3579545#32

/-- The variables of the loop, and the number of polls that it has made. -/
structure Delay where
  polls : ℕ
  start : BitVec 32
  elapsed : BitVec 32
  deriving DecidableEq, Repr

/-- The 24 bits of a read of the port. -/
def low24 (value : BitVec 32) : BitVec 32 :=
  value &&& 0x00FFFFFF#32

/-- The body of the loop; `inl k` is what read `k` of the port returns. -/
def Delay.poll (inl : ℕ → BitVec 32) (d : Delay) : Delay :=
  let current := low24 (inl (d.polls + 1))
  let elapsed :=
    if d.start ≤ current then d.elapsed + (current - d.start)
    else d.elapsed + ((0x00FFFFFF#32 - d.start) + current)
  ⟨d.polls + 1, current, elapsed⟩

def targetTicks (ms : BitVec 32) : BitVec 32 :=
  (ms * acpiPmFreq) / 1000#32

/-- `acpi_pm_delay_ms`, for at most `fuel` tests; the number of polls. -/
def acpiPmDelayMs (inl : ℕ → BitVec 32) (ms : BitVec 32) (fuel : ℕ) : Option ℕ :=
  (whileLoop (fun d => decide (d.elapsed < targetTicks ms)) (Delay.poll inl) fuel
    ⟨0, low24 (inl 0), 0⟩).map Delay.polls

/-! ## True time -/

/-- The port shows the low 24 bits of a count that advances by less than
`2 ^ 24` between two reads. -/
structure FreeRunning (inl : ℕ → BitVec 32) (ticks : ℕ → ℕ) : Prop where
  shows : ∀ k, (inl k).toNat % 2 ^ 24 = ticks k % 2 ^ 24
  advances : ∀ k, ticks k ≤ ticks (k + 1)
  slow : ∀ k, ticks (k + 1) < ticks k + 2 ^ 24

/-- The ticks between the first read and poll `n`. -/
def trueElapsed (ticks : ℕ → ℕ) (n : ℕ) : ℕ :=
  ticks n - ticks 0

/-- How often the 24-bit counter has wrapped by poll `n`. -/
def wraps (ticks : ℕ → ℕ) (n : ℕ) : ℕ :=
  ticks n / 2 ^ 24 - ticks 0 / 2 ^ 24

/-- The ticks of a delay of `ms`, over the integers. -/
def trueTarget (ms : BitVec 32) : ℕ :=
  ms.toNat * 3579545 / 1000

/-- The delay ends at the first poll that shows enough true ticks, and only
there. -/
def MeasuresTrueTime (inl : ℕ → BitVec 32) (ticks : ℕ → ℕ) (ms : BitVec 32) : Prop :=
  ∀ n, (∃ fuel, acpiPmDelayMs inl ms fuel = some n) ↔
    IsLeast {n | trueTarget ms ≤ trueElapsed ticks n} n

theorem toNat_low24 (value : BitVec 32) : (low24 value).toNat = value.toNat % 2 ^ 24 := by
  rw [low24, BitVec.toNat_and]
  exact Nat.and_two_pow_sub_one_eq_mod value.toNat 24

theorem toNat_targetTicks (ms : BitVec 32) :
    (targetTicks ms).toNat = ms.toNat * 3579545 % 2 ^ 32 / 1000 := by
  rw [targetTicks, BitVec.toNat_udiv, BitVec.toNat_mul]
  rfl

/-- The product wraps from 1200 ms on. -/
theorem toNat_targetTicks_of_lt {ms : BitVec 32} (hms : ms.toNat < 1200) :
    (targetTicks ms).toNat = trueTarget ms := by
  rw [toNat_targetTicks, trueTarget, Nat.mod_eq_of_lt (by omega)]

section Counter

variable {inl : ℕ → BitVec 32} {ticks : ℕ → ℕ} {ms : BitVec 32}

theorem FreeRunning.mono (hfree : FreeRunning inl ticks) : Monotone ticks :=
  monotone_nat_of_le_succ hfree.advances

/-- A wrap takes at least one tick. -/
theorem FreeRunning.wraps_le (hfree : FreeRunning inl ticks) (n : ℕ) :
    wraps ticks n ≤ trueElapsed ticks n := by
  have hle := hfree.mono (Nat.zero_le n)
  rw [wraps, trueElapsed]
  omega

/-- What the loop has counted by poll `n`. -/
def counted (ticks : ℕ → ℕ) (n : ℕ) : ℕ :=
  trueElapsed ticks n - wraps ticks n

/-- One poll: a wrap costs one tick. -/
theorem FreeRunning.counted_succ (hfree : FreeRunning inl ticks) (n : ℕ) :
    counted ticks (n + 1) = counted ticks n +
      if ticks n % 2 ^ 24 ≤ ticks (n + 1) % 2 ^ 24 then
        ticks (n + 1) % 2 ^ 24 - ticks n % 2 ^ 24
      else (0x00FFFFFF - ticks n % 2 ^ 24) + ticks (n + 1) % 2 ^ 24 := by
  have hstart := hfree.mono (Nat.zero_le n)
  have hadvances := hfree.advances n
  have hslow := hfree.slow n
  simp only [counted, trueElapsed, wraps]
  split_ifs <;> omega

theorem low24_eq_ofNat {value : BitVec 32} {a : ℕ}
    (ha : value.toNat % 2 ^ 24 = a % 2 ^ 24) : low24 value = BitVec.ofNat 32 (a % 2 ^ 24) := by
  apply BitVec.eq_of_toNat_eq
  rw [toNat_low24, ha, BitVec.toNat_ofNat]
  omega

theorem add_forward (count : ℕ) {a b : ℕ} (hle : a ≤ b) (hb : b < 2 ^ 24) :
    BitVec.ofNat 32 count + (BitVec.ofNat 32 b - BitVec.ofNat 32 a) =
      BitVec.ofNat 32 (count + (b - a)) := by
  rw [BitVec.ofNat_sub_ofNat_of_le b a (by omega) hle, ← BitVec.ofNat_add]

theorem add_wrapped (count : ℕ) {a : ℕ} (b : ℕ) (ha : a < 2 ^ 24) :
    BitVec.ofNat 32 count + ((0x00FFFFFF#32 - BitVec.ofNat 32 a) + BitVec.ofNat 32 b) =
      BitVec.ofNat 32 (count + ((0x00FFFFFF - a) + b)) := by
  rw [BitVec.ofNat_sub_ofNat_of_le 0x00FFFFFF a (by omega) (by omega),
    ← BitVec.ofNat_add, ← BitVec.ofNat_add]

/-- One poll on the counts. -/
theorem FreeRunning.poll_counted (hfree : FreeRunning inl ticks) (n : ℕ) :
    Delay.poll inl ⟨n, low24 (inl n), BitVec.ofNat 32 (counted ticks n)⟩ =
      ⟨n + 1, low24 (inl (n + 1)), BitVec.ofNat 32 (counted ticks (n + 1))⟩ := by
  have hlow : ticks n % 2 ^ 24 < 2 ^ 24 := Nat.mod_lt _ (by omega)
  have hlow' : ticks (n + 1) % 2 ^ 24 < 2 ^ 24 := Nat.mod_lt _ (by omega)
  have hle : BitVec.ofNat 32 (ticks n % 2 ^ 24) ≤ BitVec.ofNat 32 (ticks (n + 1) % 2 ^ 24) ↔
      ticks n % 2 ^ 24 ≤ ticks (n + 1) % 2 ^ 24 := by
    rw [BitVec.le_def, BitVec.toNat_ofNat, BitVec.toNat_ofNat,
      Nat.mod_eq_of_lt (show ticks n % 2 ^ 24 < 2 ^ 32 by omega),
      Nat.mod_eq_of_lt (show ticks (n + 1) % 2 ^ 24 < 2 ^ 32 by omega)]
  simp only [Delay.poll, low24_eq_ofNat (hfree.shows n),
    low24_eq_ofNat (hfree.shows (n + 1)), hle, hfree.counted_succ, Delay.mk.injEq, true_and]
  split_ifs with hsame
  · exact add_forward _ hsame hlow'
  · exact add_wrapped _ _ hlow

/-- The variables of the loop hold the count, modulo `2 ^ 32`. -/
theorem FreeRunning.iterate_poll (hfree : FreeRunning inl ticks) (n : ℕ) :
    (Delay.poll inl)^[n] ⟨0, low24 (inl 0), 0⟩ =
      ⟨n, low24 (inl n), BitVec.ofNat 32 (counted ticks n)⟩ := by
  induction n with
  | zero =>
      have hzero : counted ticks 0 = 0 := by simp [counted, trueElapsed]
      rw [hzero]
      rfl
  | succ n ih =>
      rw [Function.iterate_succ_apply', ih, hfree.poll_counted]

theorem FreeRunning.counted_mono (hfree : FreeRunning inl ticks) :
    Monotone (counted ticks) := by
  refine monotone_nat_of_le_succ fun n => ?_
  rw [hfree.counted_succ]
  exact Nat.le_add_right _ _

/-- The count does not overflow while the loop runs. -/
theorem FreeRunning.counted_lt (hfree : FreeRunning inl ticks) {n : ℕ}
    (hruns : ∀ j < n, counted ticks j < (targetTicks ms).toNat) :
    counted ticks n < 2 ^ 32 := by
  have htarget := toNat_targetTicks ms
  cases n with
  | zero => simp [counted, trueElapsed]
  | succ n =>
      have hbelow := hruns n (Nat.lt_succ_self n)
      have hcount := hfree.counted_succ n
      split_ifs at hcount <;> omega

theorem polls_iterate (inl : ℕ → BitVec 32) (d : Delay) (n : ℕ) :
    ((Delay.poll inl)^[n] d).polls = d.polls + n := by
  induction n with
  | zero => rfl
  | succ n ih =>
      rw [Function.iterate_succ_apply']
      exact congrArg (· + 1) ih

/-- The loop ends at the first poll whose count reaches the 32-bit target. -/
theorem FreeRunning.acpiPmDelayMs_iff (hfree : FreeRunning inl ticks) (n : ℕ) :
    (∃ fuel, acpiPmDelayMs inl ms fuel = some n) ↔
      IsLeast {n | (targetTicks ms).toNat ≤ counted ticks n} n := by
  have hexits : ∀ n, (∀ j < n, ¬ (targetTicks ms).toNat ≤ counted ticks j) →
      (n ∈ Exits (fun d => decide (d.elapsed < targetTicks ms)) (Delay.poll inl)
        ⟨0, low24 (inl 0), 0⟩ ↔ (targetTicks ms).toNat ≤ counted ticks n) := by
    intro n hruns
    have hbelow : ∀ j < n, counted ticks j < (targetTicks ms).toNat :=
      fun j hj => not_le.mp (hruns j hj)
    rw [mem_exits, hfree.iterate_poll, decide_eq_false_iff_not, BitVec.not_lt,
      BitVec.le_def, BitVec.toNat_ofNat, Nat.mod_eq_of_lt (hfree.counted_lt hbelow)]
  have hdelay : (∃ fuel, acpiPmDelayMs inl ms fuel = some n) ↔
      ∃ d, (∃ fuel, whileLoop (fun d => decide (d.elapsed < targetTicks ms))
        (Delay.poll inl) fuel ⟨0, low24 (inl 0), 0⟩ = some d) ∧ d.polls = n := by
    simp only [acpiPmDelayMs, Option.map_eq_some_iff]
    exact ⟨fun ⟨fuel, d, hloop, hpolls⟩ => ⟨d, ⟨fuel, hloop⟩, hpolls⟩,
      fun ⟨d, ⟨fuel, hloop⟩, hpolls⟩ => ⟨fuel, d, hloop, hpolls⟩⟩
  rw [hdelay, ← isLeast_exits_iff hexits]
  simp only [exists_whileLoop_iff]
  constructor
  · rintro ⟨d, ⟨k, hleast, rfl⟩, rfl⟩
    rwa [polls_iterate, Nat.zero_add]
  · intro hleast
    refine ⟨_, ⟨n, hleast, rfl⟩, ?_⟩
    rw [polls_iterate, Nat.zero_add]

theorem FreeRunning.measuresTrueTime_iff (hfree : FreeRunning inl ticks) :
    MeasuresTrueTime inl ticks ms ↔
      ∀ n, trueTarget ms ≤ trueElapsed ticks n ↔
        (targetTicks ms).toNat ≤ counted ticks n := by
  have htrue : IsUpperSet {n | trueTarget ms ≤ trueElapsed ticks n} :=
    fun j k hjk hj => le_trans hj (Nat.sub_le_sub_right (hfree.mono hjk) _)
  have hloop : IsUpperSet {n | (targetTicks ms).toNat ≤ counted ticks n} :=
    fun j k hjk hj => le_trans hj (hfree.counted_mono hjk)
  simp only [MeasuresTrueTime, hfree.acpiPmDelayMs_iff]
  rw [forall_isLeast_iff hloop htrue]
  exact forall_congr' fun _ => Iff.comm

theorem FreeRunning.le_counted_iff (hfree : FreeRunning inl ticks) (n : ℕ) :
    (targetTicks ms).toNat ≤ counted ticks n ↔
      (targetTicks ms).toNat + wraps ticks n ≤ trueElapsed ticks n := by
  have hwraps := hfree.wraps_le n
  rw [counted]
  omega

/-- Below 1200 ms the delay is exact when no poll falls among the ticks that the
wraps have cost. -/
theorem FreeRunning.exact_of_lt (hfree : FreeRunning inl ticks) (hms : ms.toNat < 1200)
    (hslack : ∀ n, trueTarget ms ≤ trueElapsed ticks n →
      trueTarget ms + wraps ticks n ≤ trueElapsed ticks n) :
    MeasuresTrueTime inl ticks ms := by
  rw [hfree.measuresTrueTime_iff]
  intro n
  rw [hfree.le_counted_iff, toNat_targetTicks_of_lt hms]
  exact ⟨hslack n, fun hreached => (Nat.le_add_right _ _).trans hreached⟩

/-- The delay measures true time exactly when no poll falls between the true
target and the one of the loop, which is wrapped and one tick later for each
wrap of the counter. -/
theorem acpi_pm_delay_exact_iff (hfree : FreeRunning inl ticks) :
    MeasuresTrueTime inl ticks ms ↔
      ∀ n, trueTarget ms ≤ trueElapsed ticks n ↔
        ms.toNat * 3579545 % 2 ^ 32 / 1000 + wraps ticks n ≤ trueElapsed ticks n := by
  rw [hfree.measuresTrueTime_iff, ← toNat_targetTicks]
  exact forall_congr' fun n => by rw [hfree.le_counted_iff]

end Counter

theorem freeRunning_steps (first : ℕ) {step : ℕ} (hstep : step < 2 ^ 24) :
    FreeRunning (fun k => BitVec.ofNat 32 (first + step * k))
      fun k => first + step * k where
  shows k := by
    rw [BitVec.toNat_ofNat]
    omega
  advances k := Nat.add_le_add_left (Nat.mul_le_mul_left step (Nat.le_succ k)) first
  slow k := by
    rw [Nat.mul_succ]
    omega

/-- Polls every 4000 ticks, with a wrap before the first: 10 ms end at the
ninth. -/
theorem acpi_pm_delay_exact_iff_4000_ticks :
    wraps (fun k => 16777215 + 4000 * k) 9 = 1 ∧
      MeasuresTrueTime (fun k => BitVec.ofNat 32 (16777215 + 4000 * k))
        (fun k => 16777215 + 4000 * k) 10 := by
  refine ⟨by decide, ?_⟩
  rw [acpi_pm_delay_exact_iff (freeRunning_steps 16777215 (by omega))]
  intro n
  have hms : (10 : BitVec 32).toNat = 10 := rfl
  rw [trueTarget, trueElapsed, wraps, hms]
  omega

/-- A counter that wraps before the first poll is read one tick short. -/
theorem not_forall_acpi_pm_delay_exact :
    ¬ ∀ (inl : ℕ → BitVec 32) (ticks : ℕ → ℕ) (ms : BitVec 32),
      FreeRunning inl ticks → MeasuresTrueTime inl ticks ms := by
  intro hexact
  have hfree := freeRunning_steps 16777215 (show 35795 < 2 ^ 24 by omega)
  have hfirst := (hfree.measuresTrueTime_iff.mp (hexact _ _ 10 hfree)) 1
  exact absurd (hfirst.mp (by decide)) (by decide)

end UnknownOS.LapicTimer
