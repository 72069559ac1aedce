import Mathlib.Logic.Function.Iterate
import Mathlib.Order.Bounds.Basic
import Mathlib.Order.Lattice.Nat
import Mathlib.Order.UpperLower.Basic

/-!
# While loops

A loop runs its body while its condition holds.  With enough fuel it stops at
the first iterate of the body for which the condition fails, and for no other
reason.
-/

namespace UnknownOS.Loops

variable {σ : Type*}

/-- `while (cond) body`, for at most `fuel` tests. -/
def whileLoop (cond : σ → Bool) (body : σ → σ) : ℕ → σ → Option σ
  | 0, _ => none
  | fuel + 1, s => if cond s then whileLoop cond body fuel (body s) else some s

variable {cond : σ → Bool} {body : σ → σ} {s s' : σ}

/-- The numbers of turns after which the condition fails. -/
def Exits (cond : σ → Bool) (body : σ → σ) (s : σ) : Set ℕ :=
  {n | cond (body^[n] s) = false}

theorem mem_exits {n : ℕ} : n ∈ Exits cond body s ↔ cond (body^[n] s) = false :=
  Iff.rfl

theorem isLeast_exits_zero (hstop : cond s = false) :
    IsLeast (Exits cond body s) 0 :=
  ⟨hstop, fun _ _ => Nat.zero_le _⟩

theorem isLeast_exits_succ (hturn : cond s = true) (n : ℕ) :
    IsLeast (Exits cond body s) (n + 1) ↔ IsLeast (Exits cond body (body s)) n := by
  constructor
  · rintro ⟨hexit, hleast⟩
    refine ⟨hexit, fun m hm => ?_⟩
    have hbound : n + 1 ≤ m + 1 := hleast (show m + 1 ∈ Exits cond body s from hm)
    exact Nat.le_of_succ_le_succ hbound
  · rintro ⟨hexit, hleast⟩
    refine ⟨hexit, fun m hm => ?_⟩
    cases m with
    | zero =>
        have hstop : cond s = false := hm
        rw [hturn] at hstop
        cases hstop
    | succ m => exact Nat.succ_le_succ (hleast hm)

theorem whileLoop_of_isLeast {n : ℕ} (hn : IsLeast (Exits cond body s) n) :
    whileLoop cond body (n + 1) s = some (body^[n] s) := by
  induction n generalizing s with
  | zero =>
      have hstop : cond s = false := hn.1
      rw [whileLoop, hstop]
      rfl
  | succ n ih =>
      have hturn : cond s = true := by
        by_contra hstop
        have hzero := hn.2 (show 0 ∈ Exits cond body s by simpa [Exits] using hstop)
        exact absurd hzero (Nat.not_succ_le_zero n)
      rw [whileLoop, if_pos hturn, ih ((isLeast_exits_succ hturn n).mp hn)]
      rfl

/-- The loop stops at the first exit. -/
theorem exists_whileLoop_iff :
    (∃ fuel, whileLoop cond body fuel s = some s') ↔
      ∃ n, IsLeast (Exits cond body s) n ∧ body^[n] s = s' := by
  constructor
  · rintro ⟨fuel, hloop⟩
    induction fuel generalizing s with
    | zero => cases hloop
    | succ fuel ih =>
        rw [whileLoop] at hloop
        split_ifs at hloop with hturn
        · obtain ⟨n, hn, hlast⟩ := ih hloop
          exact ⟨n + 1, (isLeast_exits_succ hturn n).mpr hn, hlast⟩
        · refine ⟨0, isLeast_exits_zero ?_, Option.some.inj hloop⟩
          simpa using hturn
  · rintro ⟨n, hn, rfl⟩
    exact ⟨n + 1, whileLoop_of_isLeast hn⟩

/-- A predicate that tells an exit as long as it told none before tells the
first exit. -/
theorem isLeast_exits_iff {p : ℕ → Prop}
    (hexits : ∀ n, (∀ j < n, ¬ p j) → (n ∈ Exits cond body s ↔ p n)) (n : ℕ) :
    IsLeast (Exits cond body s) n ↔ IsLeast {n | p n} n := by
  have hnever : ∀ n, (∀ j < n, j ∉ Exits cond body s) → ∀ j < n, ¬ p j := by
    intro n hstays j
    induction j using Nat.strong_induction_on with
    | h j ih =>
        intro hj hp
        have hbefore : ∀ i < j, ¬ p i := fun i hi => ih i hi (hi.trans hj)
        exact hstays j hj ((hexits j hbefore).mpr hp)
  constructor
  · rintro ⟨hexit, hleast⟩
    have hbefore := hnever n fun j hj hmem => absurd (hleast hmem) (not_le.mpr hj)
    refine ⟨(hexits n hbefore).mp hexit, fun j hj => ?_⟩
    by_contra hlt
    exact hbefore j (not_le.mp hlt) hj
  · rintro ⟨hp, hleast⟩
    have hbefore : ∀ j < n, ¬ p j := fun j hj hpj => absurd (hleast hpj) (not_le.mpr hj)
    refine ⟨(hexits n hbefore).mpr hp, fun j hj => ?_⟩
    by_contra hlt
    have hearlier : ∀ i < j, ¬ p i := fun i hi => hbefore i (hi.trans (not_le.mp hlt))
    exact hbefore j (not_le.mp hlt) ((hexits j hearlier).mp hj)

theorem exists_isLeast_le {p : ℕ → Prop} {n : ℕ} (hn : p n) :
    ∃ k ≤ n, IsLeast {n | p n} k :=
  ⟨sInf {n | p n}, Nat.sInf_le hn, Nat.sInf_mem ⟨n, hn⟩, fun _ => Nat.sInf_le⟩

/-- Two conditions that stay true once they are true become true together
exactly when they are the same. -/
theorem forall_isLeast_iff {p q : ℕ → Prop} (hp : IsUpperSet {n | p n})
    (hq : IsUpperSet {n | q n}) :
    (∀ n, IsLeast {n | p n} n ↔ IsLeast {n | q n} n) ↔ ∀ n, p n ↔ q n := by
  constructor
  · intro hsame n
    constructor
    · intro hn
      obtain ⟨k, hk, hleast⟩ := exists_isLeast_le hn
      exact hq hk ((hsame k).mp hleast).1
    · intro hn
      obtain ⟨k, hk, hleast⟩ := exists_isLeast_le hn
      exact hp hk ((hsame k).mpr hleast).1
  · intro hsame n
    rw [Set.ext hsame]

end UnknownOS.Loops
