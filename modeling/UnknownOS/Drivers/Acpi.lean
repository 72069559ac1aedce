import UnknownOS.Core.Memory

/-!
# The search for the PM timer port

A translation of `get_acpi_pm_timer_port`, with the entry pointers that it
reads.  The tables come from the firmware: every field may hold any value, and
addresses wrap around.  The number of entries is computed from the declared
length without a test that the length covers the header.
-/

namespace UnknownOS.Acpi

open UnknownOS.Memory

/-- The byte at an offset from a pointer. -/
def byteAt (m : Mem) (p : Word) (offset : ℕ) : Byte :=
  m (p + BitVec.ofNat 64 offset).toNat

def load32At (m : Mem) (p : Word) (offset : ℕ) : BitVec 32 :=
  byteAt m p (offset + 3) ++ byteAt m p (offset + 2) ++ byteAt m p (offset + 1) ++
    byteAt m p offset

def load64At (m : Mem) (p : Word) (offset : ℕ) : Word :=
  load32At m p (offset + 4) ++ load32At m p offset

/-- `sizeof(acpi_header_t)`. -/
def headerSize : ℕ := 36

/-- `header->length`. -/
def headerLength (m : Mem) (header : Word) : BitVec 32 :=
  load32At m header 4

/-- The test of the signature for `"FACP"`. -/
def isFacp (m : Mem) (header : Word) : Bool :=
  byteAt m header 0 == 0x46 && byteAt m header 1 == 0x41 &&
    byteAt m header 2 == 0x43 && byteAt m header 3 == 0x50

/-- `(uint16_t)fadt->pm_timer_block`. -/
def pmTimerPort (m : Mem) (fadt : Word) : BitVec 16 :=
  (load32At m fadt 76).setWidth 16

/-- The two tables of pointers. -/
inductive Table
  | xsdt
  | rsdt
  deriving DecidableEq, Repr

/-- The bytes of an entry. -/
def Table.entrySize : Table → ℕ
  | .xsdt => 8
  | .rsdt => 4

/-- `pointers[i]`. -/
def Table.pointer (table : Table) (m : Mem) (base : Word) (i : ℕ) : Word :=
  match table with
  | .xsdt => load64At m base (headerSize + 8 * i)
  | .rsdt => (load32At m base (headerSize + 4 * i)).setWidth 64

/-- `entries`; the subtraction is one of type `size_t`. -/
def Table.entries (table : Table) (length : BitVec 32) : BitVec 32 :=
  ((length.setWidth 64 - BitVec.ofNat 64 headerSize) /
    BitVec.ofNat 64 table.entrySize).setWidth 32

/-- A read of `size` bytes. -/
structure Read where
  address : Word
  size : ℕ
  deriving DecidableEq, Repr

/-- The result, and the reads of entry pointers. -/
structure Search where
  port : BitVec 16
  reads : List Read
  deriving DecidableEq, Repr

/-- `P2V`. -/
def p2v (offset phys : Word) : Word :=
  phys + offset

def Table.read (table : Table) (base : Word) (i : ℕ) : Read :=
  ⟨base + BitVec.ofNat 64 (headerSize + table.entrySize * i), table.entrySize⟩

/-- The loop over the entries from `i` on, of which `rest` are left. -/
def searchEntries (m : Mem) (offset : Word) (table : Table) (base : Word) :
    ℕ → ℕ → Search
  | _, 0 => ⟨0, []⟩
  | i, rest + 1 =>
      let header := p2v offset (table.pointer m base i)
      if isFacp m header then ⟨pmTimerPort m header, [table.read base i]⟩
      else
        let search := searchEntries m offset table base (i + 1) rest
        ⟨search.port, table.read base i :: search.reads⟩

def searchTable (m : Mem) (offset : Word) (table : Table) (base : Word) : Search :=
  searchEntries m offset table base 0 (table.entries (headerLength m base)).toNat

/-- The table that the RSDP selects, and its address. -/
def selectTable (m : Mem) (offset rsdp : Word) : Table × Word :=
  let revision := byteAt m rsdp 15
  let rsdtAddress := load32At m rsdp 16
  let xsdtAddress := load64At m rsdp 24
  if 2#8 ≤ revision ∧ xsdtAddress ≠ 0 then (.xsdt, p2v offset xsdtAddress)
  else (.rsdt, p2v offset (rsdtAddress.setWidth 64))

/-- `response` is the address in the response of the bootloader, if there is a
response. -/
def getAcpiPmTimerPort (m : Mem) (response : Option Word) (offset : Word) : Search :=
  match response with
  | none => ⟨0, []⟩
  | some rsdp =>
      if rsdp = 0 then ⟨0, []⟩
      else
        let (table, base) := selectTable m offset rsdp
        searchTable m offset table base

/-! ## What the search should do -/

/-- The first entry within the declared length whose signature is `"FACP"`. -/
def firstFacp (m : Mem) (offset : Word) (table : Table) (base : Word) : Option ℕ :=
  (List.range (((headerLength m base).toNat - headerSize) / table.entrySize)).find?
    fun i => isFacp m (p2v offset (table.pointer m base i))

/-- Every byte of the read lies in the declared length of the table. -/
def Read.Within (read : Read) (m : Mem) (base : Word) : Prop :=
  ∀ j < read.size, ∃ k < (headerLength m base).toNat,
    read.address + BitVec.ofNat 64 j = base + BitVec.ofNat 64 k

/-- The reads stay in the table, and the port is that of the first FADT. -/
structure Search.Bounded (search : Search) (m : Mem) (offset : Word) (table : Table)
    (base : Word) : Prop where
  within : ∀ read ∈ search.reads, read.Within m base
  port : search.port = match firstFacp m offset table base with
    | some i => pmTimerPort m (p2v offset (table.pointer m base i))
    | none => 0

/-- The table that a call searches. -/
def Searches (m : Mem) (response : Option Word) (offset : Word) (table : Table)
    (base : Word) : Prop :=
  ∃ rsdp, response = some rsdp ∧ rsdp ≠ 0 ∧ selectTable m offset rsdp = (table, base)

/-- The call searches its table within its bounds; without a table it reads no
entry and finds no port. -/
structure SearchesBounded (m : Mem) (response : Option Word) (offset : Word) : Prop where
  bounded : ∀ table base, Searches m response offset table base →
    (getAcpiPmTimerPort m response offset).Bounded m offset table base
  absent : (∀ table base, ¬ Searches m response offset table base) →
    getAcpiPmTimerPort m response offset = ⟨0, []⟩

section Search

variable {m : Mem} {offset base : Word} {table : Table}

theorem searchEntries_reads (i rest : ℕ) :
    ∀ read ∈ (searchEntries m offset table base i rest).reads,
      ∃ j < i + rest, read = table.read base j := by
  induction rest generalizing i with
  | zero => exact fun read hread => absurd hread List.not_mem_nil
  | succ rest ih =>
      rw [searchEntries]
      split_ifs with hfacp
      · intro read hread
        exact ⟨i, by omega, List.mem_singleton.mp hread⟩
      · intro read hread
        rcases List.mem_cons.mp hread with rfl | hread
        · exact ⟨i, by omega, rfl⟩
        · obtain ⟨j, hj, rfl⟩ := ih (i + 1) read hread
          exact ⟨j, by omega, rfl⟩

theorem searchEntries_port (i rest : ℕ) :
    (searchEntries m offset table base i rest).port =
      match (List.range' i rest).find? fun i =>
        isFacp m (p2v offset (table.pointer m base i)) with
      | some i => pmTimerPort m (p2v offset (table.pointer m base i))
      | none => 0 := by
  induction rest generalizing i with
  | zero => rfl
  | succ rest ih =>
      rw [searchEntries, List.range'_succ, List.find?_cons]
      split_ifs with hfacp
      · simp only [hfacp]
      · rw [Bool.not_eq_true] at hfacp
        simp only [hfacp]
        exact ih (i + 1)

theorem Table.toNat_entries (table : Table) (length : BitVec 32) :
    (table.entries length).toNat =
      (2 ^ 64 - 36 + length.toNat) % 2 ^ 64 / table.entrySize % 2 ^ 32 := by
  have hlength : length.toNat < 2 ^ 64 := length.isLt.trans (by norm_num)
  have hheader : (BitVec.ofNat 64 headerSize).toNat = 36 := rfl
  have hsize : (BitVec.ofNat 64 table.entrySize).toNat = table.entrySize := by
    cases table <;> rfl
  rw [Table.entries, BitVec.toNat_setWidth, BitVec.toNat_udiv, BitVec.toNat_sub,
    BitVec.toNat_setWidth, hheader, hsize, Nat.mod_eq_of_lt hlength]

variable (table) in
theorem toNat_entries_of_le (hlength : headerSize ≤ (headerLength m base).toNat) :
    (table.entries (headerLength m base)).toNat =
      ((headerLength m base).toNat - headerSize) / table.entrySize := by
  have hlt := (headerLength m base).isLt
  rw [Table.toNat_entries]
  rw [headerSize] at hlength ⊢
  cases table <;> simp only [Table.entrySize] <;> omega

variable (table) in
/-- A length below that of the header wraps to a large number of entries. -/
theorem entries_pos_of_lt (hshort : (headerLength m base).toNat < headerSize) :
    0 < (table.entries (headerLength m base)).toNat := by
  rw [Table.toNat_entries]
  rw [headerSize] at hshort
  cases table <;> simp only [Table.entrySize] <;> omega

theorem bounded_of_le (hlength : headerSize ≤ (headerLength m base).toNat) :
    (searchTable m offset table base).Bounded m offset table base := by
  have hentries := toNat_entries_of_le table hlength
  constructor
  · intro read hread j hj
    obtain ⟨i, hi, rfl⟩ := searchEntries_reads 0 _ read hread
    rw [hentries, Nat.zero_add] at hi
    refine ⟨headerSize + table.entrySize * i + j, ?_, ?_⟩
    · have hfits := Nat.mul_le_of_le_div _ _ _ (Nat.succ_le_of_lt hi)
      rw [Table.read] at hj
      cases table <;> simp only [Table.entrySize] at hj hfits ⊢ <;> omega
    · rw [Table.read, BitVec.add_assoc, ← BitVec.ofNat_add]
  · rw [searchTable, searchEntries_port, hentries, firstFacp, List.range_eq_range']

/-- The first entry of a table that is too short for its header is not in it. -/
theorem not_bounded_of_lt (hshort : (headerLength m base).toNat < headerSize) :
    ¬ (searchTable m offset table base).Bounded m offset table base := by
  intro hbounded
  have hentries := entries_pos_of_lt table hshort
  obtain ⟨rest, hrest⟩ := Nat.exists_eq_add_one_of_ne_zero hentries.ne'
  have hread : table.read base 0 ∈ (searchTable m offset table base).reads := by
    rw [searchTable, hrest, searchEntries]
    split_ifs
    · exact List.mem_cons_self
    · exact List.mem_cons_self
  have hsize : 0 < (table.read base 0).size := by
    cases table <;> exact Nat.succ_pos _
  obtain ⟨k, hk, hsame⟩ := hbounded.within _ hread 0 hsize
  rw [Table.read, Nat.mul_zero, Nat.add_zero, BitVec.add_assoc, ← BitVec.ofNat_add,
    Nat.add_zero, BitVec.add_right_inj] at hsame
  have hnat := congrArg BitVec.toNat hsame
  rw [headerSize] at hnat hshort
  rw [BitVec.toNat_ofNat, BitVec.toNat_ofNat] at hnat
  omega

theorem getAcpiPmTimerPort_of_searches {response : Option Word}
    (hsearches : Searches m response offset table base) :
    getAcpiPmTimerPort m response offset = searchTable m offset table base := by
  obtain ⟨rsdp, rfl, hpresent, hselect⟩ := hsearches
  simp only [getAcpiPmTimerPort, if_neg hpresent, hselect]

/-- The search is right exactly when the table that it reads, if there is one,
is declared at least as long as its header. -/
theorem get_acpi_pm_timer_port_bounded_iff (m : Mem) (response : Option Word)
    (offset : Word) :
    SearchesBounded m response offset ↔
      ∀ table base, Searches m response offset table base →
        36 ≤ (headerLength m base).toNat := by
  constructor
  · intro hbounded table base hsearches
    by_contra hshort
    have hsearch := hbounded.bounded table base hsearches
    rw [getAcpiPmTimerPort_of_searches hsearches] at hsearch
    exact not_bounded_of_lt (not_le.mp hshort) hsearch
  · intro hlength
    constructor
    · intro table base hsearches
      rw [getAcpiPmTimerPort_of_searches hsearches]
      exact bounded_of_le (hlength table base hsearches)
    · intro habsent
      cases response with
      | none => rfl
      | some rsdp =>
          have hnull : rsdp = 0 := by
            by_contra hpresent
            exact habsent _ _ ⟨rsdp, rfl, hpresent, rfl⟩
          rw [getAcpiPmTimerPort, if_pos hnull]

/-- In memory full of zeros the RSDT at 0x1000 is shorter than its header. -/
theorem not_forall_get_acpi_pm_timer_port_bounded :
    ¬ ∀ (m : Mem) (response : Option Word) (offset : Word),
      SearchesBounded m response offset := by
  intro hbounded
  have hsearches : Searches (fun _ => 0) (some 0x10) 0x1000 .rsdt 0x1000 :=
    ⟨0x10, rfl, by decide, by decide⟩
  have hsearch := (hbounded _ _ _).bounded _ _ hsearches
  rw [getAcpiPmTimerPort_of_searches hsearches] at hsearch
  exact not_bounded_of_lt (by decide) hsearch

end Search

end UnknownOS.Acpi
