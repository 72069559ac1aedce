import UnknownOS.Klib.MemCorrect
import UnknownOS.Kernel.Pmm

/-!
# The bitmap as a set of occupied pages

Both scanners and both freers read and write one array of bytes, by bit or by
64-bit word.  Here every access is rephrased in terms of `isOccupied`, the
set of pages whose bit is set; nothing later looks at bytes.
-/

namespace UnknownOS.Pmm

open UnknownOS.Memory
open UnknownOS.Klib

theorem isOccupied_eq (bitmap : Mem) (page : ℕ) :
    isOccupied bitmap page = (bitmap (page / 8)).getLsbD (page % 8) := by
  have hlt : page % 8 < 8 := Nat.mod_lt _ (by norm_num)
  rw [isOccupied, ← BitVec.twoPow_eq, BitVec.and_twoPow]
  cases hbit : (bitmap (page / 8)).getLsbD (page % 8) with
  | false => simp
  | true =>
      simp only [if_true, bne_iff_ne, ne_eq]
      intro hzero
      have hget := congrArg (fun x => x.getLsbD (page % 8)) hzero
      simp [hlt] at hget

theorem isOccupied_set (bitmap : Mem) (page other : ℕ) :
    isOccupied (bitmapSetPage bitmap page) other = true ↔
      isOccupied bitmap other = true ∨ other = page := by
  rw [isOccupied_eq, isOccupied_eq, bitmapSetPage, store8_apply,
    ← BitVec.twoPow_eq]
  split_ifs with hbyte
  · have hsame : page % 8 = other % 8 ↔ other = page := by omega
    rw [hbyte, BitVec.getLsbD_or, BitVec.getLsbD_twoPow, Bool.or_eq_true]
    simp [Nat.mod_lt, hsame]
  · have hne : other ≠ page := by
      rintro rfl
      exact hbyte rfl
    simp [hne]

theorem isOccupied_clear (bitmap : Mem) (page other : ℕ) :
    isOccupied (bitmapClearPage bitmap page) other = true ↔
      isOccupied bitmap other = true ∧ other ≠ page := by
  rw [isOccupied_eq, isOccupied_eq, bitmapClearPage, store8_apply,
    ← BitVec.twoPow_eq]
  have hlt : other % 8 < 8 := Nat.mod_lt _ (by norm_num)
  split_ifs with hbyte
  · have hsame : page % 8 = other % 8 ↔ other = page := by omega
    rw [hbyte, BitVec.getLsbD_and, BitVec.getLsbD_not, BitVec.getLsbD_twoPow,
      Bool.and_eq_true]
    simp [hlt, Nat.mod_lt, hsame]
  · have hne : other ≠ page := by
      rintro rfl
      exact hbyte rfl
    simp [hne]

theorem isOccupied_foldl_set (pages : List ℕ) (bitmap : Mem) (page : ℕ) :
    isOccupied (pages.foldl bitmapSetPage bitmap) page = true ↔
      isOccupied bitmap page = true ∨ page ∈ pages := by
  induction pages generalizing bitmap with
  | nil => simp
  | cons head rest ih =>
      rw [List.foldl_cons, ih, isOccupied_set, or_assoc, List.mem_cons]

theorem isOccupied_foldl_clear (pages : List ℕ) (bitmap : Mem) (page : ℕ) :
    isOccupied (pages.foldl bitmapClearPage bitmap) page = true ↔
      isOccupied bitmap page = true ∧ page ∉ pages := by
  induction pages generalizing bitmap with
  | nil => simp
  | cons head rest ih =>
      rw [List.foldl_cons, ih, isOccupied_clear, and_assoc, List.mem_cons, not_or]

theorem mem_loop_pages (lo hi page : ℕ) :
    page ∈ List.range' lo (hi - lo) ↔ lo ≤ page ∧ page < hi := by
  rw [List.mem_range'_1]
  omega

theorem isOccupied_setPages (bitmap : Mem) (lo hi page : ℕ) :
    isOccupied (setPages bitmap lo hi) page = true ↔
      isOccupied bitmap page = true ∨ lo ≤ page ∧ page < hi := by
  rw [setPages, isOccupied_foldl_set, mem_loop_pages]

theorem isOccupied_clearPages (bitmap : Mem) (lo hi page : ℕ) :
    isOccupied (clearPages bitmap lo hi) page = true ↔
      isOccupied bitmap page = true ∧ ¬ (lo ≤ page ∧ page < hi) := by
  rw [clearPages, isOccupied_foldl_clear, mem_loop_pages]

/-! ## Words -/

/-- Bit `k` of word `i` is the bit of page `64 * i + k`. -/
theorem getLsbD_bitmap64 (bitmap : Mem) (i k : ℕ) (hk : k < 64) :
    (bitmap64 bitmap i).getLsbD k = isOccupied bitmap (i * 64 + k) := by
  rw [bitmap64, getLsbD_load64 _ _ _ hk, isOccupied_eq,
    show (i * 64 + k) / 8 = 8 * i + k / 8 by omega,
    show (i * 64 + k) % 8 = k % 8 by omega]

theorem bitmap64_eq_full_iff (bitmap : Mem) (i : ℕ) :
    bitmap64 bitmap i = 0xFFFFFFFFFFFFFFFF ↔
      ∀ k < 64, isOccupied bitmap (i * 64 + k) = true := by
  rw [show (0xFFFFFFFFFFFFFFFF : Word) = BitVec.allOnes 64 by decide]
  constructor
  · intro hfull k hk
    rw [← getLsbD_bitmap64 bitmap i k hk, hfull, BitVec.getLsbD_allOnes]
    simp [hk]
  · intro hbits
    apply BitVec.eq_of_getLsbD_eq
    intro k hk
    rw [getLsbD_bitmap64 bitmap i k hk, hbits k hk, BitVec.getLsbD_allOnes]
    simp [hk]

/-- `__builtin_ctzll(~bitmap64[i])` is the lowest free page of the word. -/
theorem isLeast_ctz {bitmap : Mem} {i : ℕ}
    (hword : bitmap64 bitmap i ≠ 0xFFFFFFFFFFFFFFFF) :
    IsLeast {k | k < 64 ∧ isOccupied bitmap (i * 64 + k) = false}
      (~~~bitmap64 bitmap i).ctz.toNat := by
  have hne : ~~~bitmap64 bitmap i ≠ 0#64 := by
    intro hzero
    apply hword
    have hback := congrArg (fun x => ~~~x) hzero
    simpa using hback
  have hbit := BitVec.getLsbD_true_ctz_of_ne_zero hne
  have hlt : (~~~bitmap64 bitmap i).ctz.toNat < 64 := by
    by_contra hge
    rw [BitVec.getLsbD_of_ge _ _ (by omega)] at hbit
    exact absurd hbit (by decide)
  constructor
  · refine ⟨hlt, ?_⟩
    rw [BitVec.getLsbD_not, getLsbD_bitmap64 _ _ _ hlt] at hbit
    simpa [hlt] using hbit
  · rintro k ⟨hk, hfree⟩
    by_contra hbelow
    have hzero := BitVec.getLsbD_false_of_lt_ctz (not_le.mp hbelow)
    rw [BitVec.getLsbD_not, getLsbD_bitmap64 _ _ _ hk, hfree] at hzero
    simp [hk] at hzero

end UnknownOS.Pmm
