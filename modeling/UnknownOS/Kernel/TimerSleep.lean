import UnknownOS.Kernel.Timer

/-!
# The length of a sleep

`sleep_ms` rounds the number of ticks down, except that a quotient of zero
becomes one tick.  A sleep is short exactly when the quotient is not zero, the
division leaves a remainder, and some reading shows that many ticks.
-/

namespace UnknownOS.Timer

open UnknownOS.Memory
open UnknownOS.Loops

/-! ## The loop -/

theorem waitUntil_iff {ticks : ℕ → Word} {target : Word} {first k : ℕ} :
    (∃ fuel, waitUntil ticks target fuel first = some k) ↔
      IsLeast {k | first ≤ k ∧ target ≤ ticks k} k := by
  have hturns : ∀ n, (fun k => k + 1)^[n] first = first + n := by
    intro n
    induction n with
    | zero => rfl
    | succ n ih => rw [Function.iterate_succ_apply', ih, Nat.add_assoc]
  have hexits : ∀ n, n ∈ Exits (fun k => decide (ticks k < target)) (fun k => k + 1) first ↔
      target ≤ ticks (first + n) := by
    intro n
    rw [mem_exits, hturns, decide_eq_false_iff_not, BitVec.not_lt]
  simp only [waitUntil]
  rw [exists_whileLoop_iff]
  constructor
  · rintro ⟨n, ⟨hexit, hleast⟩, hlast⟩
    rw [hturns] at hlast
    subst hlast
    refine ⟨⟨Nat.le_add_right _ _, (hexits n).mp hexit⟩, fun k ⟨hfirst, hreached⟩ => ?_⟩
    obtain ⟨j, rfl⟩ := Nat.exists_eq_add_of_le hfirst
    exact Nat.add_le_add_left (hleast ((hexits j).mpr hreached)) first
  · rintro ⟨⟨hfirst, hreached⟩, hleast⟩
    obtain ⟨n, rfl⟩ := Nat.exists_eq_add_of_le hfirst
    refine ⟨n, ⟨(hexits n).mpr hreached, fun j hj => ?_⟩, hturns n⟩
    exact Nat.le_of_add_le_add_left
      (hleast ⟨Nat.le_add_right first j, (hexits j).mp hj⟩)

/-- The number of ticks that `sleep_ms` waits for. -/
theorem ticksToWait_toNat (ms frequency : BitVec 32) :
    (ticksToWait ms frequency).toNat =
      if ms.toNat * frequency.toNat < 1000 ∧ 0 < ms.toNat then 1
      else ms.toNat * frequency.toNat / 1000 := by
  have hproduct : ms.toNat * frequency.toNat ≤ (2 ^ 32 - 1) * (2 ^ 32 - 1) :=
    Nat.mul_le_mul (Nat.le_sub_one_of_lt ms.isLt) (Nat.le_sub_one_of_lt frequency.isLt)
  have hms := ms.isLt
  have hfrequency := frequency.isLt
  have hquotient : (ms.setWidth 64 * frequency.setWidth 64 / 1000#64 : Word).toNat =
      ms.toNat * frequency.toNat / 1000 := by
    rw [BitVec.toNat_udiv, BitVec.toNat_mul, BitVec.toNat_setWidth, BitVec.toNat_setWidth,
      Nat.mod_eq_of_lt (show ms.toNat < 2 ^ 64 by omega),
      Nat.mod_eq_of_lt (show frequency.toNat < 2 ^ 64 by omega),
      Nat.mod_eq_of_lt (by omega)]
    rfl
  have hzero : (ms.setWidth 64 * frequency.setWidth 64 / 1000#64 : Word) = 0#64 ↔
      ms.toNat * frequency.toNat < 1000 := by
    rw [← BitVec.toNat_inj, hquotient, BitVec.toNat_ofNat]
    omega
  have hpos : (0#32 < ms) ↔ 0 < ms.toNat := Iff.rfl
  simp only [ticksToWait, hzero, hpos]
  split_ifs
  · rfl
  · exact hquotient

/-! ## Sleeping long enough -/

/-- `sleep_ms` returns only at readings that are late enough, and at the first
that shows enough ticks. -/
structure NeverShort (s : State) (ticks : ℕ → Word) (ms frequency : BitVec 32) :
    Prop where
  enough : ∀ fuel slept, sleepMs s ticks ms fuel = some slept →
    ∃ k > 0, slept = .atReading k ∧
      ms.toNat * frequency.toNat ≤ ((ticks k).toNat - (ticks 0).toNat) * 1000
  prompt : ∀ k, IsLeast {k | 0 < k ∧ (ms.toNat * frequency.toNat + 999) / 1000 ≤
    (ticks k).toNat - (ticks 0).toNat} k → ∃ fuel, sleepMs s ticks ms fuel = some (.atReading k)

section Sleep

variable {s : State} {timer : ℕ} {frequency : BitVec 32} {ticks : ℕ → Word}
  {ms : BitVec 32}

/-- The active timer can be read and has the frequency, and the target does not
wrap. -/
structure CanSleep (s : State) (timer : ℕ) (frequency : BitVec 32) (ticks : ℕ → Word)
    (ms : BitVec 32) : Prop where
  active : s.activeTimer = some timer
  getTicks : (s.device timer).getTicks = true
  frequency_eq : (s.device timer).frequency = frequency
  pos : 0 < frequency
  wrap : (ticks 0).toNat + (ticksToWait ms frequency).toNat < 2 ^ 64
  mono : Monotone fun k => (ticks k).toNat

theorem CanSleep.sleepMs_iff (hcan : CanSleep s timer frequency ticks ms)
    (slept : Slept) :
    (∃ fuel, sleepMs s ticks ms fuel = some slept) ↔
      ∃ k, slept = .atReading k ∧ IsLeast {k | 0 < k ∧
        (ticks 0).toNat + (ticksToWait ms frequency).toNat ≤ (ticks k).toNat} k := by
  have hne : ¬ (frequency = 0 ∨ (s.device timer).getTicks = false) := by
    rintro (hzero | hnull)
    · have hpos := hcan.pos
      rw [hzero] at hpos
      exact absurd hpos (by decide)
    · rw [hcan.getTicks] at hnull
      cases hnull
  have htarget : ∀ k, ticks 0 + ticksToWait ms frequency ≤ ticks k ↔
      (ticks 0).toNat + (ticksToWait ms frequency).toNat ≤ (ticks k).toNat := by
    intro k
    rw [BitVec.le_def, BitVec.toNat_add, Nat.mod_eq_of_lt hcan.wrap]
  have hloop : ∀ k, (∃ fuel, waitUntil ticks (ticks 0 + ticksToWait ms frequency) fuel 1 =
      some k) ↔ IsLeast {k | 0 < k ∧
        (ticks 0).toNat + (ticksToWait ms frequency).toNat ≤ (ticks k).toNat} k := by
    intro k
    rw [waitUntil_iff]
    simp only [htarget, Nat.succ_le_iff]
  have hsleep : ∀ fuel, sleepMs s ticks ms fuel =
      (waitUntil ticks (ticks 0 + ticksToWait ms frequency) fuel 1).map .atReading := by
    intro fuel
    simp only [sleepMs, hcan.active, hcan.frequency_eq, if_neg hne]
  simp only [hsleep, Option.map_eq_some_iff]
  constructor
  · rintro ⟨fuel, k, hwait, rfl⟩
    exact ⟨k, rfl, (hloop k).mp ⟨fuel, hwait⟩⟩
  · rintro ⟨k, rfl, hleast⟩
    obtain ⟨fuel, hwait⟩ := (hloop k).mpr hleast
    exact ⟨fuel, k, hwait, rfl⟩

/-- A reading that shows the truncated quotient ends the sleep too early. -/
theorem CanSleep.not_neverShort (hcan : CanSleep s timer frequency ticks ms)
    (hremainder : ms.toNat * frequency.toNat % 1000 ≠ 0)
    (hlarge : 1000 ≤ ms.toNat * frequency.toNat) {k : ℕ} (hk : 0 < k)
    (hshows : (ticks k).toNat = (ticks 0).toNat + ms.toNat * frequency.toNat / 1000) :
    ¬ NeverShort s ticks ms frequency := by
  intro hnever
  have hwait := ticksToWait_toNat ms frequency
  rw [if_neg (by omega)] at hwait
  have hreached : 0 < k ∧
      (ticks 0).toNat + (ticksToWait ms frequency).toNat ≤ (ticks k).toNat :=
    ⟨hk, by rw [hwait, hshows]⟩
  obtain ⟨first, hfirst, hleast⟩ := exists_isLeast_le (p := fun k => 0 < k ∧
    (ticks 0).toNat + (ticksToWait ms frequency).toNat ≤ (ticks k).toNat) hreached
  have hbefore := hcan.mono hfirst
  obtain ⟨fuel, hslept⟩ := (hcan.sleepMs_iff _).mpr ⟨_, rfl, hleast⟩
  obtain ⟨k', -, hsame, henough⟩ := hnever.enough fuel _ hslept
  obtain rfl := Slept.atReading.inj hsame
  dsimp only at hbefore
  omega

/-- Sleeps are long enough unless the truncated quotient is shown. -/
theorem sleep_ms_never_short_iff (hcan : CanSleep s timer frequency ticks ms) :
    NeverShort s ticks ms frequency ↔
      ms.toNat * frequency.toNat % 1000 = 0 ∨ ms.toNat * frequency.toNat < 1000 ∨
        ∀ k > 0, (ticks k).toNat ≠
          (ticks 0).toNat + ms.toNat * frequency.toNat / 1000 := by
  constructor
  · intro hnever
    by_contra! hshort
    obtain ⟨hremainder, hlarge, k, hk, hshows⟩ := hshort
    exact hcan.not_neverShort hremainder hlarge hk hshows hnever
  · intro hcondition
    have hwait := ticksToWait_toNat ms frequency
    have hzero : ms.toNat = 0 → ms.toNat * frequency.toNat = 0 := by
      intro hms
      rw [hms, Nat.zero_mul]
    have hsome : 0 < ms.toNat → 0 < ms.toNat * frequency.toNat :=
      fun hms => Nat.mul_pos hms hcan.pos
    -- the code waits for the rounded-up number of ticks
    have hsame : ∀ k > 0,
        (ticks 0).toNat + (ticksToWait ms frequency).toNat ≤ (ticks k).toNat ↔
          (ms.toNat * frequency.toNat + 999) / 1000 ≤
            (ticks k).toNat - (ticks 0).toNat := by
      intro k hk
      have hlater : (ticks 0).toNat ≤ (ticks k).toNat := hcan.mono (Nat.zero_le k)
      rw [hwait]
      rcases hcondition with hexact | hsmall | hshows
      · split_ifs <;> omega
      · split_ifs <;> omega
      · have hskipped := hshows k hk
        split_ifs <;> omega
    constructor
    · intro fuel slept hslept
      obtain ⟨k, rfl, ⟨hk, hreached⟩, -⟩ := (hcan.sleepMs_iff slept).mp ⟨fuel, hslept⟩
      have hticks := (hsame k hk).mp hreached
      exact ⟨k, hk, rfl, by omega⟩
    · rintro k ⟨⟨hk, hreached⟩, hleast⟩
      refine (hcan.sleepMs_iff _).mpr ⟨k, rfl, ⟨hk, (hsame k hk).mpr hreached⟩, ?_⟩
      rintro j ⟨hj, hticks⟩
      exact hleast ⟨hj, (hsame j hj).mp hticks⟩

end Sleep

/-- One active device with a frequency, and readings that step from 5 to 6. -/
theorem canSleep_example {frequency : BitVec 32} (hpos : 0 < frequency)
    (hslow : frequency.toNat < 2000) :
    CanSleep { links := ⟨fun _ => none, fun _ => none⟩
               device := fun _ => ⟨true, true, frequency⟩
               activeTimer := some 0
               initCalls := [] }
      0 frequency (fun k => if k = 0 then 5 else 6) 1 where
  active := rfl
  getTicks := rfl
  frequency_eq := rfl
  pos := hpos
  wrap := by
    have hwait := ticksToWait_toNat 1 frequency
    have hone : (1 : BitVec 32).toNat = 1 := rfl
    have hfive : (5 : Word).toNat = 5 := rfl
    rw [hone, Nat.one_mul] at hwait
    rw [if_pos rfl, hwait, hfive]
    split_ifs <;> omega
  mono := by
    intro j k hjk
    have hsmall : (5 : Word).toNat ≤ (6 : Word).toNat := by decide
    dsimp only
    split_ifs with hj hk hk
    · exact le_rfl
    · exact hsmall
    · omega
    · exact le_rfl

/-- At 1000 Hz a sleep of 1 ms ends with the first tick. -/
theorem sleep_ms_never_short_iff_1000_hertz :
    NeverShort { links := ⟨fun _ => none, fun _ => none⟩
                 device := fun _ => ⟨true, true, 1000⟩
                 activeTimer := some 0
                 initCalls := [] }
      (fun k => if k = 0 then 5 else 6) 1 1000 :=
  (sleep_ms_never_short_iff (canSleep_example (by decide) (by decide))).mpr
    (Or.inl (by decide))

/-- At 1500 Hz it ends there too. -/
theorem not_forall_sleep_ms_never_short :
    ¬ ∀ (s : State) (timer : ℕ) (frequency : BitVec 32) (ticks : ℕ → Word)
      (ms : BitVec 32), CanSleep s timer frequency ticks ms →
      NeverShort s ticks ms frequency := by
  intro hnever
  have hcan := canSleep_example (show 0 < 1500#32 by decide) (by decide)
  exact hcan.not_neverShort (by decide) (by decide) Nat.one_pos (by decide)
    (hnever _ _ _ _ _ hcan)

end UnknownOS.Timer
