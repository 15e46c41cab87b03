import Bodos.Paging.Model
import Bodos.Lib.PageTables

/-!
# The kernel's address map

`paging_init` of `arch/i386/paging.c` with the page directory and the page tables.
The code runs with paging on: its stores go through the tables of `boot.s`, which
map the first 32 MiB to `VIRTUAL_MEM_OFFSET`, while it changes the directory.

Results:
1. `BootMapped.walk`: the addresses in the window of `boot.s`.
2. `clearLoop_meets`, `fillLoop_meets`, `tableRound_meets`: what the loops leave.
3. `pagingInit_map`: the map of all addresses after `paging_init`.
4. `pagingInit_info`: the records are those of `Bodos.pagingInit`.
-/

namespace Bodos

open Mem32 Memory Fallible

/-- `VIRTUAL_MEM_OFFSET`. -/
def virtualMemOffset : Word := 0xC0000000

def virtualToPhysical (virt : Word) : Word := virt - virtualMemOffset

/-- `KERNEL_ENTRY_IN_PAGEDIR`. -/
def kernelEntry : Nat := 768

/-- `NUM_KERNEL_PAGE_TABLES_AT_BOOT`. -/
def numBootTables : Nat := 8

/-- `NUM_DYNAMIC_KERNEL_PAGE_TABLES`. -/
def numDynamicTables : Nat := numOfPte - kernelEntry - numBootTables

/-- The page table `i` of the array at `a`. -/
def tableAt (a : Word) (i : Nat) : Word := a + BitVec.ofNat 32 (4096 * i)

/-- The `n` pages from `a` on are among the first 32 MiB above `VIRTUAL_MEM_OFFSET`. -/
def InWindow (a : Word) (n : Nat) : Prop :=
  0xC0000000 ≤ a.toNat ∧ a.toNat + 4096 * n ≤ 0xC2000000

instance (a : Word) (n : Nat) : Decidable (InWindow a n) := inferInstanceAs (Decidable (_ ∧ _))

/-- Where the linker has put `boot_page_directory`, `boot_page_table1` with the
tables after it, and `kernel_page_tables`: pages that are all different. -/
structure KernelLayout where
  directory : Word
  bootTable1 : Word
  kernelTables : Word
  directory_aligned : Aligned directory
  bootTable1_aligned : Aligned bootTable1
  kernelTables_aligned : Aligned kernelTables
  directory_window : InWindow directory 1
  kernelTables_window : InWindow kernelTables numDynamicTables
  directory_apart : ∀ i < numBootTables, tableAt bootTable1 i ≠ directory
  kernelTables_apart : ∀ s < numDynamicTables, directory ≠ tableAt kernelTables s ∧
    ∀ i < numBootTables, tableAt bootTable1 i ≠ tableAt kernelTables s

/-- `struct page_directory_info`: `table`, and `table` and the other fields of each entry. -/
structure PagedirInfo where
  table : Word
  tables : Nat → Word
  info : PdInfo

structure PagingState where
  mem : Memory
  pdi : PagedirInfo

namespace PagedirInfo

/-- `pagedir_info` before `paging_init`. -/
def zeroed : PagedirInfo := ⟨0, fun _ => 0, fun _ => ⟨0, fun _ => false⟩⟩

def setTable (pdi : PagedirInfo) (i : Nat) (table : Word) (entry : PageTableInfo) : PagedirInfo :=
  { pdi with
    tables := fun d => if d = i then table else pdi.tables d
    info := fun d => if d = i then entry else pdi.info d }

end PagedirInfo

namespace KernelLayout

/-- The value that `boot.s` loads into `%cr3`. -/
def cr3 (l : KernelLayout) : Word := virtualToPhysical l.directory

/-! ## 1. The code -/

/-- The loop that clears the entries below the kernel's. -/
def clearLoop (cr3 pdt : Word) (m : Memory) : Except PageFault Memory :=
  (List.range kernelEntry).foldlM (fun m i => m.storeVia cr3 (cell pdt i) 0) m

/-- The loop over the tables of `boot.s`. -/
def bootLoop (bootTable1 : Word) (pdi : PagedirInfo) : PagedirInfo :=
  (List.range numBootTables).foldl (fun pdi i =>
    pdi.setTable (kernelEntry + i) (tableAt bootTable1 i)
      { pdi.info (kernelEntry + i) with numOfFreePages := 0 }) pdi

/-- The loop over the entries of a table, with `vaddr`. -/
def fillLoop (cr3 table : Word) (s : Memory × Word) : Except PageFault (Memory × Word) :=
  (List.range numOfPte).foldlM (fun (m, vaddr) j => do
    let m ← m.storeVia cr3 (cell table j) (virtualToPhysical vaddr + 3)
    return (m, vaddr + 4096)) s

/-- The variables of the loop over the tables of `kernel_page_tables`. -/
structure TableLoop where
  mem : Memory
  pdi : PagedirInfo
  vaddr : Word
  slot : Nat

/-- A round of this loop, for the directory entry `i`. -/
def tableRound (cr3 kernelTables : Word) (s : TableLoop) (i : Nat) :
    Except PageFault TableLoop := do
  let table := tableAt kernelTables s.slot
  let m ← s.mem.storeVia cr3 (cell s.pdi.table i) (virtualToPhysical table + 3)
  let pdi := s.pdi.setTable i table ⟨numOfPte, fun _ => false⟩
  let (m, vaddr) ← fillLoop cr3 table (m, s.vaddr)
  return ⟨m, pdi, vaddr, s.slot + 1⟩

/-- `init_higher_half_pagedirectory_info`. The flush of the TLB at its end is left out. -/
def initHigherHalf (l : KernelLayout) (s : PagingState) : Except PageFault PagingState := do
  let m ← clearLoop l.cr3 s.pdi.table s.mem
  let pdi := bootLoop l.bootTable1 s.pdi
  let vaddr := virtualMemOffset + BitVec.ofNat 32 (numBootTables * pageSize * 1024)
  let s ← (List.range (numOfPde - firstDynamic)).foldlM
    (fun s n => tableRound l.cr3 l.kernelTables s (firstDynamic + n)) ⟨m, pdi, vaddr, 0⟩
  return ⟨s.mem, s.pdi⟩

/-- `paging_init`. -/
def pagingInit (l : KernelLayout) (s : PagingState) : Except PageFault PagingState :=
  l.initHigherHalf { s with pdi := { s.pdi with table := l.directory } }

/-! ## 2. The window of `boot.s` -/

/-- The physical address of the boot table `i`. -/
def bootTable (l : KernelLayout) (i : Nat) : Word := virtualToPhysical (tableAt l.bootTable1 i)

/-- The physical address of `kernel_page_tables[s]`. -/
def kernelTable (l : KernelLayout) (s : Nat) : Word := virtualToPhysical (tableAt l.kernelTables s)

/-- The entries 768 to 775 of the directory point to the boot tables, which map the
first 32 MiB as present and writable. -/
def BootMapped (l : KernelLayout) (m : Memory) : Prop :=
  ∀ i < numBootTables, m.MapsTable l.cr3 (kernelEntry + i) (l.bootTable i)
    (BitVec.ofNat 32 (i * 2 ^ 22))

variable {l : KernelLayout} {m m' : Memory}

theorem aligned_tableAt {a : Word} (aligned : Aligned a) (i : Nat) : Aligned (tableAt a i) := by
  unfold Aligned at *
  rw [tableAt, BitVec.toNat_add, BitVec.toNat_ofNat]
  omega

theorem virtualToPhysical_toNat (v : Word) :
    (virtualToPhysical v).toNat = (v.toNat + 0x40000000) % 2 ^ 32 := by
  have offset : virtualMemOffset.toNat = 0xC0000000 := rfl
  rw [virtualToPhysical, BitVec.toNat_sub, offset, Nat.add_comm]

theorem aligned_physical {a : Word} (aligned : Aligned a) : Aligned (virtualToPhysical a) := by
  unfold Aligned at *
  rw [virtualToPhysical_toNat]
  omega

theorem physical_ne {a b : Word} (ne : a ≠ b) : virtualToPhysical a ≠ virtualToPhysical b := by
  unfold virtualToPhysical
  bv_omega

theorem aligned_cr3 (l : KernelLayout) : Aligned l.cr3 := aligned_physical l.directory_aligned

theorem aligned_bootTable (l : KernelLayout) (i : Nat) : Aligned (l.bootTable i) :=
  aligned_physical (aligned_tableAt l.bootTable1_aligned i)

theorem aligned_kernelTable (l : KernelLayout) (s : Nat) : Aligned (l.kernelTable s) :=
  aligned_physical (aligned_tableAt l.kernelTables_aligned s)

theorem cr3_ne_bootTable {i : Nat} (hi : i < numBootTables) : l.cr3 ≠ l.bootTable i :=
  (physical_ne (l.directory_apart i hi)).symm

theorem cr3_ne_kernelTable {s : Nat} (hs : s < numDynamicTables) : l.cr3 ≠ l.kernelTable s :=
  physical_ne (l.kernelTables_apart s hs).1

theorem bootTable_ne_kernelTable {i s : Nat} (hi : i < numBootTables) (hs : s < numDynamicTables) :
    l.bootTable i ≠ l.kernelTable s :=
  physical_ne ((l.kernelTables_apart s hs).2 i hi)

/-- The walk of an address of the kernel, from the table for its directory entry. -/
theorem walk_kernel {v t : Word} (high : virtualMemOffset ≤ v)
    (h : m.MapsTable l.cr3 (dirIndex v) t
      (BitVec.ofNat 32 ((dirIndex v - kernelEntry) * 2 ^ 22))) :
    m.walk l.cr3 v = some (virtualToPhysical v, true) := by
  have low : 0xC0000000 ≤ v.toNat := high
  have small := v.isLt
  have index := dirIndex_eq v
  rw [h.walk (by rw [index, kernelEntry]; omega)]
  have address : BitVec.ofNat 32 ((dirIndex v - kernelEntry) * 2 ^ 22 + v.toNat % 2 ^ 22) =
      virtualToPhysical v := by
    refine BitVec.eq_of_toNat_eq ?_
    rw [BitVec.toNat_ofNat, virtualToPhysical_toNat, index, kernelEntry]
    omega
  rw [address]

/-- What `boot.s` maps is reached as long as its tables are in place. -/
theorem BootMapped.walk (boot : l.BootMapped m) {v : Word} (low : 0xC0000000 ≤ v.toNat)
    (high : v.toNat < 0xC2000000) : m.walk l.cr3 v = some (virtualToPhysical v, true) := by
  have index := dirIndex_eq v
  have inside : dirIndex v - kernelEntry < numBootTables := by
    rw [index, kernelEntry, numBootTables]
    omega
  have above : kernelEntry + (dirIndex v - kernelEntry) = dirIndex v := by
    rw [index, kernelEntry]
    omega
  have table := boot _ inside
  rw [above] at table
  exact walk_kernel low table

/-! ## 3. The stores -/

theorem BootMapped.storeDirectory (boot : l.BootMapped m) {i : Nat} (hi : i < 1024) (w : Word) :
    m.storeVia l.cr3 (cell l.directory i) w = .ok (m.write32 (cell l.cr3 i) w) := by
  have address := cell_toNat l.directory_aligned hi
  obtain ⟨low, high⟩ := l.directory_window
  have walk := boot.walk (v := cell l.directory i) (by omega) (by omega)
  rw [Memory.storeVia_eq walk, virtualToPhysical, cell_sub]
  rfl

theorem tableAt_toNat {s : Nat} (hs : s < numDynamicTables) :
    (tableAt l.kernelTables s).toNat = l.kernelTables.toNat + 4096 * s := by
  obtain ⟨-, high⟩ := l.kernelTables_window
  rw [tableAt, BitVec.toNat_add, BitVec.toNat_ofNat]
  omega

theorem kernelTable_ne {s s' : Nat} (hs : s < numDynamicTables) (hs' : s' < numDynamicTables)
    (ne : s ≠ s') : l.kernelTable s ≠ l.kernelTable s' := by
  refine physical_ne fun same => ne ?_
  have numbers := congrArg BitVec.toNat same
  rw [tableAt_toNat hs, tableAt_toNat hs'] at numbers
  omega

theorem BootMapped.storeTable (boot : l.BootMapped m) {s j : Nat} (hs : s < numDynamicTables)
    (hj : j < 1024) (w : Word) :
    m.storeVia l.cr3 (cell (tableAt l.kernelTables s) j) w =
      .ok (m.write32 (cell (l.kernelTable s) j) w) := by
  have address := cell_toNat (aligned_tableAt l.kernelTables_aligned s) hj
  have table := tableAt_toNat (l := l) hs
  obtain ⟨low, high⟩ := l.kernelTables_window
  have walk := boot.walk (v := cell (tableAt l.kernelTables s) j) (by omega) (by omega)
  rw [Memory.storeVia_eq walk, virtualToPhysical, cell_sub]
  rfl

/-- Storing another entry of the directory leaves the window in place. -/
theorem BootMapped.writeEntry (boot : l.BootMapped m) {i : Nat} (hi : i < 1024)
    (outside : i < kernelEntry ∨ firstDynamic ≤ i) (w : Word) :
    l.BootMapped (m.write32 (cell l.cr3 i) w) := by
  intro b hb
  have small : b < 8 := hb
  refine (boot b hb).writeEntry l.aligned_cr3 ?_ hi (l.aligned_bootTable b) ?_ (cr3_ne_bootTable hb)
  · rw [kernelEntry]
    omega
  · rw [kernelEntry, firstDynamic] at *
    omega

theorem BootMapped.onlyTable (boot : l.BootMapped m) {s : Nat} (hs : s < numDynamicTables)
    (only : m.OnlyPage (l.kernelTable s) m') : l.BootMapped m' := by
  intro b hb
  have small : b < 8 := hb
  refine (boot b hb).onlyPage only l.aligned_cr3 ?_ (l.aligned_bootTable b) (cr3_ne_kernelTable hs)
    (bootTable_ne_kernelTable hb hs)
  rw [kernelEntry]
  omega

/-! ## 4. The loops -/

/-- The window is in place, and the first `n` entries of the directory are cleared. -/
structure Cleared (l : KernelLayout) (n : Nat) (m : Memory) : Prop where
  boot : l.BootMapped m
  zero : ∀ i < n, m.read32 (cell l.cr3 i) = 0

theorem clearLoop_meets (boot : l.BootMapped m) :
    Meets True (clearLoop l.cr3 l.directory m) (l.Cleared kernelEntry) := by
  refine Meets.foldlM_range (I := l.Cleared) ⟨boot, fun i hi => absurd hi (Nat.not_lt_zero i)⟩ ?_
  intro i hi m' cleared
  have small : i < 1024 := Nat.lt_trans hi (by decide)
  rw [cleared.boot.storeDirectory small]
  refine .ok ⟨cleared.boot.writeEntry small (.inl hi) 0, fun j hj => ?_⟩
  cases Nat.lt_or_eq_of_le (Nat.le_of_lt_succ hj) with
  | inl earlier =>
      rw [read32_write32_of_apart]
      · exact cleared.zero j earlier
      · exact cell_apart l.aligned_cr3 l.aligned_cr3 small (Nat.lt_trans earlier small)
          (.inr (Nat.ne_of_gt earlier))
  | inr same =>
      rw [same]
      exact read32_write32_same m' _ 0

/-- The first `n` entries of the table `s` map the pages from `vaddr` on. -/
structure Filling (l : KernelLayout) (m : Memory) (s : Nat) (vaddr : Word) (n : Nat)
    (r : Memory × Word) : Prop where
  only : m.OnlyPage (l.kernelTable s) r.1
  pages : ∀ j < n, r.1.read32 (cell (l.kernelTable s) j) =
    virtualToPhysical vaddr + BitVec.ofNat 32 (4096 * j) + 3
  vaddr : r.2 = vaddr + BitVec.ofNat 32 (4096 * n)

theorem fillLoop_meets (boot : l.BootMapped m) {s : Nat} (hs : s < numDynamicTables)
    (vaddr : Word) :
    Meets True (fillLoop l.cr3 (tableAt l.kernelTables s) (m, vaddr))
      (l.Filling m s vaddr numOfPte) := by
  refine Meets.foldlM_range (I := l.Filling m s vaddr)
    ⟨.refl m _, fun j hj => absurd hj (Nat.not_lt_zero j), by simp⟩ ?_
  rintro j hj ⟨m', v⟩ ⟨only, pages, current⟩
  dsimp only at only pages current ⊢
  rw [(boot.onlyTable hs only).storeTable hs hj, ok_bind]
  refine .ok ⟨only.write (l.aligned_kernelTable s) hj _, fun i hi => ?_, ?_⟩
  · dsimp only
    cases Nat.lt_or_eq_of_le (Nat.le_of_lt_succ hi) with
    | inl earlier =>
        rw [read32_write32_of_apart]
        · exact pages i earlier
        · exact cell_apart (l.aligned_kernelTable s) (l.aligned_kernelTable s) hj
            (Nat.lt_trans earlier hj) (.inr (Nat.ne_of_gt earlier))
    | inr same =>
        rw [same, read32_write32_same, current]
        unfold virtualToPhysical
        bv_omega
  · dsimp only
    rw [current]
    bv_omega

/-- What the loop over `kernel_page_tables` has done after `n` rounds. -/
structure Filled (l : KernelLayout) (n : Nat) (s : TableLoop) : Prop where
  cleared : l.Cleared kernelEntry s.mem
  tables : ∀ i < n, s.mem.MapsTable l.cr3 (firstDynamic + i) (l.kernelTable i)
    (BitVec.ofNat 32 ((numBootTables + i) * 2 ^ 22))
  table : s.pdi.table = l.directory
  vaddr : s.vaddr = BitVec.ofNat 32 (0xC2000000 + n * 2 ^ 22)
  slot : s.slot = n

theorem physical_vaddr (n : Nat) :
    virtualToPhysical (BitVec.ofNat 32 (0xC2000000 + n * 2 ^ 22)) =
      BitVec.ofNat 32 ((numBootTables + n) * 2 ^ 22) := by
  refine BitVec.eq_of_toNat_eq ?_
  rw [virtualToPhysical_toNat, BitVec.toNat_ofNat, BitVec.toNat_ofNat, numBootTables]
  omega

theorem tableRound_meets {n : Nat} {s : TableLoop} (filled : l.Filled n s)
    (hn : n < numDynamicTables) :
    Meets True (tableRound l.cr3 l.kernelTables s (firstDynamic + n)) (l.Filled (n + 1)) := by
  obtain ⟨⟨boot, zero⟩, tables, table, vaddr, slot⟩ := filled
  have small : n < 248 := hn
  have index : firstDynamic + n < 1024 := by
    rw [firstDynamic]
    omega
  have dynamic : firstDynamic ≤ firstDynamic + n := Nat.le_add_right _ _
  unfold tableRound
  dsimp only
  rw [slot, table, boot.storeDirectory index, ok_bind]
  have boot' := boot.writeEntry index (.inr dynamic) (l.kernelTable n + 3)
  refine (fillLoop_meets boot' hn s.vaddr).bind fun ⟨m', v⟩ ⟨only, pages, current⟩ => .ok ?_
  dsimp only at only pages current
  -- `fillLoop` writes the new table only, and the page directory lies outside it
  have entry (i : Nat) (hi : i < 1024) (ne : i ≠ firstDynamic + n) :
      m'.read32 (cell l.cr3 i) = s.mem.read32 (cell l.cr3 i) := by
    rw [only l.cr3 i l.aligned_cr3 (cr3_ne_kernelTable hn) hi]
    exact read32_write32_of_apart (cell_apart l.aligned_cr3 l.aligned_cr3 index hi (.inr ne.symm))
  refine ⟨⟨boot'.onlyTable hn only, fun i hi => ?_⟩, fun i hi => ?_, table, ?_, rfl⟩
  · have below : i < firstDynamic := Nat.lt_of_lt_of_le hi (by decide)
    rw [entry i (Nat.lt_trans hi (by decide)) (by omega)]
    exact zero i hi
  · cases Nat.lt_or_eq_of_le (Nat.le_of_lt_succ hi) with
    | inl earlier =>
        have hi' := Nat.lt_trans earlier hn
        refine (tables i earlier).congr (entry _ (by omega) (by omega)) fun j hj => ?_
        rw [only _ j (l.aligned_kernelTable i) (kernelTable_ne hi' hn (Nat.ne_of_lt earlier)) hj]
        exact read32_write32_of_apart (cell_apart l.aligned_cr3 (l.aligned_kernelTable i) index hj
          (.inl (cr3_ne_kernelTable hi')))
    | inr same =>
        subst same
        refine ⟨?_, fun j hj => ?_⟩
        · rw [only l.cr3 _ l.aligned_cr3 (cr3_ne_kernelTable hn) index, read32_write32_same]
          exact leadsTo_entry (l.aligned_kernelTable i)
        · rw [pages j hj, vaddr, physical_vaddr]
          exact leadsTo_entry (aligned_page _ j)
  · have next : 0xC2000000 + n * 2 ^ 22 + 4096 * numOfPte = 0xC2000000 + (n + 1) * 2 ^ 22 := by
      rw [numOfPte]
      omega
    rw [current, vaddr, ← BitVec.ofNat_add, next]

/-! ## 5. The map -/

theorem bootLoop_table (b : Word) (pdi : PagedirInfo) : (bootLoop b pdi).table = pdi.table := by
  unfold bootLoop
  induction List.range numBootTables generalizing pdi with
  | nil => rfl
  | cons i is ih => exact ih _

theorem pagingInit_meets {s : PagingState} (boot : l.BootMapped s.mem) :
    Meets True (l.pagingInit s) fun s' => ∃ r, l.Filled numDynamicTables r ∧ s'.mem = r.mem := by
  refine (clearLoop_meets boot).bind fun m cleared => ?_
  refine Meets.bind (Meets.foldlM_range (I := l.Filled) ⟨cleared, ?_, ?_, ?_, rfl⟩ ?_)
    fun r filled => .ok ⟨r, filled, rfl⟩
  · exact fun i hi => absurd hi (Nat.not_lt_zero i)
  · exact bootLoop_table _ _
  · rfl
  · exact fun n hn r filled => tableRound_meets filled hn

theorem Filled.walk {r : TableLoop} (filled : l.Filled numDynamicTables r) (v : Word) :
    r.mem.walk l.cr3 v =
      if virtualMemOffset ≤ v then some (virtualToPhysical v, true) else none := by
  have index := dirIndex_eq v
  split
  · rename_i high
    have low : 0xC0000000 ≤ v.toNat := high
    cases Nat.lt_or_ge v.toNat 0xC2000000 with
    | inl inside => exact filled.cleared.boot.walk low inside
    | inr above =>
        have small := v.isLt
        have dynamic : dirIndex v - firstDynamic < numDynamicTables := by
          rw [index, firstDynamic, numDynamicTables, numOfPte, kernelEntry, numBootTables]
          omega
        have table := filled.tables _ dynamic
        have here : firstDynamic + (dirIndex v - firstDynamic) = dirIndex v := by
          rw [index, firstDynamic]
          omega
        have base : numBootTables + (dirIndex v - firstDynamic) = dirIndex v - kernelEntry := by
          rw [index, firstDynamic, kernelEntry, numBootTables]
          omega
        rw [here, base] at table
        exact walk_kernel high table
  · rename_i low
    have below : v.toNat < 0xC0000000 := Nat.not_le.mp low
    refine walk_absent (filled.cleared.zero _ ?_)
    rw [index, kernelEntry]
    omega

end KernelLayout

/-- From a state in which the window of `boot.s` is mapped, `paging_init` returns, and
then a walk from `boot_page_directory` takes every address from
`VIRTUAL_MEM_OFFSET` on to the physical address below it, which may be written,
and finds no page for any other address. -/
theorem pagingInit_map (l : KernelLayout) (s : PagingState) (boot : l.BootMapped s.mem) :
    ∃ s', l.pagingInit s = .ok s' ∧ ∀ v : Word, s'.mem.walk l.cr3 v =
      if virtualMemOffset ≤ v then some (virtualToPhysical v, true) else none := by
  obtain ⟨s', run, r, filled, mem⟩ := (KernelLayout.pagingInit_meets boot).run trivial
  exact ⟨s', run, fun v => mem ▸ filled.walk v⟩

namespace KernelLayout

/-- A kernel at physical address `0x100000`. -/
def sample : KernelLayout where
  directory := 0xC0100000
  bootTable1 := 0xC0101000
  kernelTables := 0xC0200000
  directory_aligned := by decide
  bootTable1_aligned := by decide
  kernelTables_aligned := by decide
  directory_window := by decide
  kernelTables_window := by decide
  directory_apart := by decide
  kernelTables_apart := by decide +kernel

/-- The memory that `boot.s` leaves, its map of the lowest addresses apart. All pages have
been accessed and written since. -/
def sampleMemory : Memory := ofWords fun n =>
  if 0x40300 ≤ n ∧ n < 0x40308 then BitVec.ofNat 32 (0x101000 + 4096 * (n - 0x40300)) + 0x23
  else if 0x40400 ≤ n ∧ n < 0x42400 then BitVec.ofNat 32 (4096 * (n - 0x40400)) + 0x63
  else 0

theorem sample_bootMapped : sample.BootMapped sampleMemory := by
  intro i hi
  have small : i < 8 := hi
  have directory : sample.cr3.toNat = 0x100000 := rfl
  have table : (sample.bootTable i).toNat = 0x101000 + 4096 * i := by
    have start : sample.bootTable1.toNat = 0xC0101000 := rfl
    rw [bootTable, virtualToPhysical_toNat, tableAt, BitVec.toNat_add, BitVec.toNat_ofNat, start]
    omega
  have entryAt : (cell sample.cr3 (kernelEntry + i)).toNat = 4 * (0x40300 + i) := by
    rw [cell_toNat (aligned_cr3 _) (by rw [kernelEntry]; omega), directory, kernelEntry]
    omega
  refine ⟨?_, fun j hj => ?_⟩
  · have entry : BitVec.ofNat 32 (0x101000 + 4096 * i) = sample.bootTable i :=
      BitVec.eq_of_toNat_eq (by rw [table, BitVec.toNat_ofNat]; omega)
    rw [sampleMemory, read32_ofWords (by omega), entryAt, Nat.mul_div_cancel_left _ (by decide),
      if_pos (by omega), Nat.add_sub_cancel_left, entry]
    exact leadsTo_add (aligned_bootTable _ i) (by decide) (by decide)
  · have pageAt : (cell (sample.bootTable i) j).toNat = 4 * (0x40400 + (1024 * i + j)) := by
      rw [cell_toNat (aligned_bootTable _ i) hj, table]
      omega
    have page : 4096 * (1024 * i + j) = i * 2 ^ 22 + 4096 * j := by omega
    rw [sampleMemory, read32_ofWords (by omega), pageAt, Nat.mul_div_cancel_left _ (by decide),
      if_neg (by omega), if_pos (by omega), Nat.add_sub_cancel_left, page, BitVec.ofNat_add]
    exact leadsTo_add (aligned_page i j) (by decide) (by decide)

end KernelLayout

/-- The highest page, and the address 0 that `boot.s` has mapped, too. -/
theorem pagingInit_map_sample :
    ∃ s', KernelLayout.sample.pagingInit ⟨KernelLayout.sampleMemory, .zeroed⟩ = .ok s' ∧
      s'.mem.walk KernelLayout.sample.cr3 0xFFFFFFFC = some (0x3FFFFFFC, true) ∧
      s'.mem.walk KernelLayout.sample.cr3 0 = none := by
  obtain ⟨s', run, map⟩ := pagingInit_map KernelLayout.sample
    ⟨KernelLayout.sampleMemory, .zeroed⟩ KernelLayout.sample_bootMapped
  exact ⟨s', run, map 0xFFFFFFFC, map 0⟩

/-! ## 6. The records -/

namespace KernelLayout

/-- The records after `n` rounds of the loop over `kernel_page_tables`. -/
def Recorded (n : Nat) (s : TableLoop) : Prop :=
  ∀ pde, s.pdi.info pde =
    if firstDynamic ≤ pde ∧ pde < firstDynamic + n then ⟨numOfPte, fun _ => false⟩
    else ⟨0, fun _ => false⟩

theorem tableRound_info {cr3 tables : Word} {s : TableLoop} {n : Nat} (recorded : Recorded n s) :
    Meets False (tableRound cr3 tables s (firstDynamic + n)) (Recorded (n + 1)) := by
  refine ⟨fun s' run pde => ?_, False.elim⟩
  obtain ⟨m, -, run⟩ := bind_eq_ok.mp run
  obtain ⟨⟨m', v⟩, -, run⟩ := bind_eq_ok.mp run
  cases run
  simp only [PagedirInfo.setTable]
  by_cases here : pde = firstDynamic + n
  · rw [if_pos here, if_pos ⟨here ▸ Nat.le_add_right _ _, here ▸ Nat.lt_succ_self _⟩]
  · rw [if_neg here, recorded pde]
    have same : pde < firstDynamic + (n + 1) ↔ pde < firstDynamic + n := by
      rw [← Nat.add_assoc, Nat.lt_succ_iff_lt_or_eq, or_iff_left here]
    simp only [same]

theorem bootLoop_info {b : Word} {pdi : PagedirInfo}
    (zero : ∀ pde, pdi.info pde = ⟨0, fun _ => false⟩) (pde : Nat) :
    (bootLoop b pdi).info pde = ⟨0, fun _ => false⟩ := by
  unfold bootLoop
  induction List.range numBootTables generalizing pdi with
  | nil => exact zero pde
  | cons i is ih =>
      refine ih fun d => ?_
      simp only [PagedirInfo.setTable, zero]
      split <;> rfl

end KernelLayout

/-- The records are those on which `alloc_pages` and `free_pages` start. -/
theorem pagingInit_info {l : KernelLayout} {m : Memory} {s' : PagingState}
    (run : l.pagingInit ⟨m, .zeroed⟩ = .ok s') {pde : Nat} (hpde : pde < numOfPde) :
    s'.pdi.info pde = pagingInit pde := by
  obtain ⟨m', -, run⟩ := bind_eq_ok.mp run
  obtain ⟨r, loop, run⟩ := bind_eq_ok.mp run
  cases run
  have recorded : KernelLayout.Recorded (numOfPde - firstDynamic) r := by
    refine (Meets.foldlM_range (T := False) (I := KernelLayout.Recorded) (fun d => ?_)
      fun n _ s recorded => KernelLayout.tableRound_info recorded).post r loop
    rw [if_neg fun both => Nat.not_lt.mpr both.1 both.2]
    exact KernelLayout.bootLoop_info (fun _ => rfl) d
  rw [recorded pde, pagingInit]
  have all : firstDynamic + (numOfPde - firstDynamic) = numOfPde := rfl
  rw [all]
  by_cases dynamic : firstDynamic ≤ pde
  · rw [if_pos ⟨dynamic, hpde⟩, if_pos dynamic]
  · rw [if_neg fun both => dynamic both.1, if_neg dynamic]

end Bodos
