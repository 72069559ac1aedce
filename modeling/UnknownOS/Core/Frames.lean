import UnknownOS.Core.Memory

/-!
# Words in a frame

A frame is a list of words at consecutive addresses, the lowest one first.
What it holds depends on its own bytes only, and a frame grows downwards by a
store below its first word.
-/

namespace UnknownOS.Memory

/-- The bytes from `low` up to `high` are the same. -/
def SameBetween (low high : ℕ) (m m' : Mem) : Prop :=
  ∀ a, low ≤ a → a < high → m' a = m a

/-- The bytes outside `low .. high` are the same. -/
def SameOutside (low high : ℕ) (m m' : Mem) : Prop :=
  ∀ a, a < low ∨ high ≤ a → m' a = m a

/-- `ws` stands at `a`, `a + 8` and so on. -/
def HoldsWords (m : Mem) : ℕ → List Word → Prop
  | _, [] => True
  | a, w :: ws => load64 m a = w ∧ HoldsWords m (a + 8) ws

section Same

variable {low high low' high' : ℕ} {m m' m'' : Mem}

theorem SameBetween.refl (m : Mem) : SameBetween low high m m :=
  fun _ _ _ => rfl

theorem SameBetween.symm (hsame : SameBetween low high m m') :
    SameBetween low high m' m :=
  fun a hlow hhigh => (hsame a hlow hhigh).symm

theorem SameBetween.trans (hfirst : SameBetween low high m m')
    (hsecond : SameBetween low high m' m'') : SameBetween low high m m'' :=
  fun a hlow hhigh => (hsecond a hlow hhigh).trans (hfirst a hlow hhigh)

theorem SameBetween.mono (hsame : SameBetween low high m m') (hlow : low ≤ low')
    (hhigh : high' ≤ high) : SameBetween low' high' m m' :=
  fun a hl hh => hsame a (hlow.trans hl) (hh.trans_le hhigh)

theorem SameBetween.load64 (hsame : SameBetween low high m m') {a : ℕ}
    (hlow : low ≤ a) (hhigh : a + 8 ≤ high) : load64 m' a = load64 m a :=
  load64_congr fun j _ => hsame (a + j) (by omega) (by omega)

theorem SameOutside.refl (m : Mem) : SameOutside low high m m :=
  fun _ _ => rfl

theorem SameOutside.trans (hfirst : SameOutside low high m m')
    (hsecond : SameOutside low high m' m'') : SameOutside low high m m'' :=
  fun a ha => (hsecond a ha).trans (hfirst a ha)

theorem SameOutside.mono (hsame : SameOutside low high m m') (hlow : low' ≤ low)
    (hhigh : high ≤ high') : SameOutside low' high' m m' :=
  fun a ha => hsame a (ha.imp (fun h => h.trans_le hlow) hhigh.trans)

theorem SameOutside.below (hsame : SameOutside low high m m') (hle : high' ≤ low) :
    SameBetween low' high' m m' :=
  fun a _ hhigh => hsame a (Or.inl (hhigh.trans_le hle))

theorem SameOutside.above (hsame : SameOutside low high m m') (hle : high ≤ low') :
    SameBetween low' high' m m' :=
  fun a hlow _ => hsame a (Or.inr (hle.trans hlow))

theorem store64_sameOutside (m : Mem) (a : ℕ) (w : Word) :
    SameOutside a (a + 8) m (store64 m a w) :=
  fun _ ha => store64_of_outside ha

end Same

section Holds

variable {m m' : Mem} {a : ℕ}

theorem HoldsWords.same {ws : List Word} (hholds : HoldsWords m a ws)
    (hsame : SameBetween a (a + 8 * ws.length) m m') : HoldsWords m' a ws := by
  induction ws generalizing a with
  | nil => trivial
  | cons w ws ih =>
    rw [List.length_cons] at hsame
    refine ⟨?_, ih hholds.2 (hsame.mono (by omega) (by omega))⟩
    rw [hsame.load64 (Nat.le_refl a) (by omega)]
    exact hholds.1

theorem holdsWords_append {ws ws' : List Word} :
    HoldsWords m a (ws ++ ws') ↔
      HoldsWords m a ws ∧ HoldsWords m (a + 8 * ws.length) ws' := by
  induction ws generalizing a with
  | nil => simp [HoldsWords]
  | cons w ws ih =>
    have haddress : a + 8 + 8 * ws.length = a + 8 * (ws.length + 1) := by omega
    rw [List.cons_append, HoldsWords, HoldsWords, ih, and_assoc, List.length_cons, haddress]

/-- The word at a place of the frame. -/
theorem HoldsWords.load {ws : List Word} (hholds : HoldsWords m a ws) {i : ℕ} {w : Word}
    (hword : ws[i]? = some w) : load64 m (a + 8 * i) = w := by
  induction ws generalizing a i with
  | nil => cases hword
  | cons head ws ih =>
    cases i with
    | zero =>
      obtain rfl := Option.some.inj hword
      exact hholds.1
    | succ i =>
      have haddress : a + 8 * (i + 1) = a + 8 + 8 * i := by omega
      rw [haddress]
      exact ih hholds.2 hword

/-- A store below the first word extends the frame. -/
theorem HoldsWords.cons {ws : List Word} (hholds : HoldsWords m (a + 8) ws) (w : Word) :
    HoldsWords (store64 m a w) a (w :: ws) :=
  ⟨load64_store64_same m a w,
    hholds.same ((store64_sameOutside m a w).above (Nat.le_refl _))⟩

end Holds

end UnknownOS.Memory
