import Mathlib.Data.List.Pairwise
import Mathlib.Order.Nat

/-!
# Tilings of an interval

A list of pieces tiles an interval of addresses when each piece begins where
the one before it ends.  Pieces are not empty, so they come in the order of
their addresses and no two of them meet.
-/

namespace UnknownOS.Tiling

structure Piece where
  start : ℕ
  length : ℕ
  deriving DecidableEq, Repr

def Piece.stop (p : Piece) : ℕ :=
  p.start + p.length

def Piece.Apart (p q : Piece) : Prop :=
  p.stop ≤ q.start ∨ q.stop ≤ p.start

instance : Std.Symm Piece.Apart :=
  ⟨fun _ _ => Or.symm⟩

/-- The pieces fill `a .. b - 1` without gap or overlap. -/
def Tiles : ℕ → List Piece → ℕ → Prop
  | a, [], b => a = b
  | a, p :: ps, b => p.start = a ∧ 0 < p.length ∧ Tiles p.stop ps b

variable {a b c n : ℕ} {p q : Piece} {ps qs : List Piece}

theorem tiles_append :
    Tiles a (ps ++ qs) c ↔ ∃ b, Tiles a ps b ∧ Tiles b qs c := by
  induction ps generalizing a with
  | nil => simp [Tiles]
  | cons p ps ih =>
      simp only [List.cons_append, Tiles, ih]
      constructor
      · rintro ⟨hstart, hlength, b, hps, hqs⟩
        exact ⟨b, ⟨hstart, hlength, hps⟩, hqs⟩
      · rintro ⟨b, ⟨hstart, hlength, hps⟩, hqs⟩
        exact ⟨hstart, hlength, b, hps, hqs⟩

theorem Tiles.le (htiles : Tiles a ps b) : a ≤ b := by
  induction ps generalizing a with
  | nil => exact le_of_eq htiles
  | cons p ps ih =>
      obtain ⟨rfl, -, hrest⟩ := htiles
      exact (Nat.le_add_right _ _).trans (ih hrest)

theorem Tiles.bounds (htiles : Tiles a ps b) (hp : p ∈ ps) :
    a ≤ p.start ∧ p.stop ≤ b := by
  obtain ⟨us, vs, rfl⟩ := List.append_of_mem hp
  obtain ⟨c, hus, rfl, -, hvs⟩ := tiles_append.mp htiles
  exact ⟨hus.le, hvs.le⟩

theorem Tiles.sorted (htiles : Tiles a ps b) :
    ps.Pairwise fun p q => p.stop ≤ q.start := by
  induction ps generalizing a with
  | nil => exact List.Pairwise.nil
  | cons p ps ih =>
      obtain ⟨-, -, hrest⟩ := htiles
      exact List.Pairwise.cons (fun q hq => (hrest.bounds hq).1) (ih hrest)

theorem Tiles.apart (htiles : Tiles a ps b) (hp : p ∈ ps) (hq : q ∈ ps)
    (hne : p ≠ q) : p.Apart q := by
  have hsorted : ps.Pairwise Piece.Apart :=
    htiles.sorted.imp fun hle => Or.inl hle
  exact hsorted.forall hp hq hne

theorem Tiles.nodup (htiles : Tiles a ps b) : (ps.map Piece.start).Nodup := by
  induction ps generalizing a with
  | nil => exact List.nodup_nil
  | cons p ps ih =>
      obtain ⟨-, hlength, hrest⟩ := htiles
      rw [List.map_cons, List.nodup_cons]
      refine ⟨fun hmem => ?_, ih hrest⟩
      obtain ⟨q, hq, hsame⟩ := List.mem_map.mp hmem
      have hbound := (hrest.bounds hq).1
      rw [hsame, Piece.stop] at hbound
      omega

/-- If all lengths are multiples of `n`, the pieces start at multiples of it. -/
theorem Tiles.dvd_start (htiles : Tiles a ps b) (ha : n ∣ a)
    (hlength : ∀ p ∈ ps, n ∣ p.length) : ∀ p ∈ ps, n ∣ p.start := by
  induction ps generalizing a with
  | nil => exact List.forall_mem_nil _
  | cons p ps ih =>
      obtain ⟨rfl, -, hrest⟩ := htiles
      have hstop : n ∣ p.stop := (Nat.dvd_add_right ha).mpr
        (hlength p List.mem_cons_self)
      exact List.forall_mem_cons.mpr ⟨ha, ih hrest hstop fun q hq =>
        hlength q (List.mem_cons_of_mem p hq)⟩

/-- A piece at the end. -/
theorem Tiles.snoc (htiles : Tiles a ps b) (hn : 0 < n) :
    Tiles a (ps ++ [⟨b, n⟩]) (b + n) :=
  tiles_append.mpr ⟨b, htiles, rfl, hn, rfl⟩

/-- A piece cut in two. -/
theorem Tiles.cut (htiles : Tiles a (ps ++ p :: qs) b) (hn : 0 < n)
    (hlength : n < p.length) :
    Tiles a (ps ++ ⟨p.start, n⟩ :: ⟨p.start + n, p.length - n⟩ :: qs) b := by
  obtain ⟨c, hps, hstart, -, hqs⟩ := tiles_append.mp htiles
  refine tiles_append.mpr ⟨c, hps, hstart, hn, rfl, Nat.sub_pos_of_lt hlength, ?_⟩
  have hstop : (Piece.mk (p.start + n) (p.length - n)).stop = p.stop := by
    simp only [Piece.stop]
    omega
  rwa [hstop]

end UnknownOS.Tiling
