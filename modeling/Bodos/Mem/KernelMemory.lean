import Bodos.Mem.Frame
import Bodos.Paging.AddressMap
import Bodos.Paging.Completeness

/-!
# The memory of the kernel

`memory::init` gives the heap its pages. From then on the kernel calls `kmalloc`,
`kfree`, `alloc_pages` and `free_pages` in any order, and writes to what it holds. The
heap is seen through the page tables: `kernelView m` is the memory as the kernel
addresses it, where `m` is the physical memory.

Results:
1. `memory_init`: `memory::init` returns after `paging_init`, with the lowest dynamic
   pages.
2. `KernelMemory.Sound.step`: what one step preserves.
3. `kernel_memory_sound`: in every run the allocators' records are right, what is held
   does not overlap, and the page tables map every address as `paging_init` left them.
4. `held_data_kept`: a byte that is held is what was last written to it.
-/

namespace Bodos

open Fallible FreeList Mem32 Memory Transition

/-! ## 1. `memory::init` -/

/-- `NUM_PAGES_HEAP`. -/
def numPagesHeap : Nat := 1 <<< 16

/-- `Heap::init`, where `alloc_pages` ends within `fuel` rounds. -/
def Heap.init (pdi : PdInfo) (m : Memory) (numOfPages fuel pte : Nat) :
    Except Fault (Block × Memory × PdInfo) := do
  let (addr, pdi) ← allocPages pdi numOfPages fuel pte
  let (block, m) := Block.init m addr (BitVec.ofNat 32 (numOfPages * pageSize))
  return (block, m, pdi)

/-- `memory::init`. -/
def memoryInit (pdi : PdInfo) (m : Memory) (fuel pte : Nat) :
    Except Fault (Block × Memory × PdInfo) :=
  Heap.init pdi m numPagesHeap fuel pte

namespace PdInfo

variable {pdi : PdInfo} {p count : Nat}

/-- The records of the dynamic tables are as `paging_init` leaves them. -/
def Fresh (pdi : PdInfo) : Prop := ∀ pde < numOfPde, pdi pde = pagingInit pde

theorem Fresh.table (fresh : pdi.Fresh) {pde : Nat} (low : firstDynamic ≤ pde)
    (high : pde < numOfPde) : pdi pde = ⟨numOfPte, fun _ => false⟩ := by
  rw [fresh pde high, pagingInit, if_pos low]

theorem Fresh.counted (fresh : pdi.Fresh) : pdi.Counted := by
  intro pde low high
  rw [fresh pde high]
  exact pagingInit_counted pde low high

theorem Fresh.isTaken (fresh : pdi.Fresh) {q : Nat} (dynamic : Dynamic q) :
    pdi.isTaken q = false := by
  rw [PdInfo.isTaken, fresh.table dynamic.1 dynamic.2]

theorem Fresh.withFree (fresh : pdi.Fresh) : pdi.withFree dynamicPdes = dynamicPdes := by
  refine List.filter_eq_self.mpr fun d mem => ?_
  obtain ⟨low, high⟩ := List.mem_range'_1.mp mem
  rw [fresh.table low (by unfold firstDynamic numOfPde at *; omega)]
  rfl

theorem Fresh.seen (fresh : pdi.Fresh) : pdi.seen = numOfPte * (numOfPde - firstDynamic) := by
  rw [PdInfo.seen, fresh.withFree, dynamicPdes, List.length_range']

theorem Fresh.pageAt (fresh : pdi.Fresh) (hp : p < pdi.seen) :
    pdi.pageAt p = numOfPte * firstDynamic + p := by
  obtain ⟨d, at_d, -, -⟩ := table_of_lt hp
  have table : d = firstDynamic + p / numOfPte := by
    rw [fresh.withFree, dynamicPdes] at at_d
    obtain ⟨inside, eq⟩ := List.getElem?_eq_some_iff.mp at_d
    rw [← eq, List.getElem_range', Nat.one_mul]
  rw [pageAt_eq p rfl at_d, table]
  unfold numOfPte
  omega

/-- The first call answers the lowest dynamic pages. -/
theorem Fresh.allocPages (fresh : pdi.Fresh) (hc : 1 ≤ count) (room : count ≤ pdi.seen)
    (pte : Nat) :
    ∃ r, pdi.AllocReturns count pte (BitVec.ofNat 32 (pageSize * (numOfPte * firstDynamic))) r := by
  have free : Runs.FreeRun pdi.flags 0 count := by
    intro k hk
    have inside : 0 + k < pdi.seen := by omega
    rw [← isTaken_pageAt]
    exact fresh.isTaken (pageAt_dynamic inside)
  have lowest : Runs.Lowest pdi.flags 0 count := ⟨free, fun r hr => absurd hr (Nat.not_lt_zero r)⟩
  have adjacent : ∀ k < count, pdi.pageAt (0 + k) = pdi.pageAt 0 + k := by
    intro k hk
    rw [fresh.pageAt (by omega), fresh.pageAt (by omega), Nat.zero_add, Nat.add_zero]
  obtain ⟨r, returns⟩ := allocPages_lowest fresh.counted hc lowest (by omega) adjacent pte
  rw [fresh.pageAt (by omega)] at returns
  exact ⟨r, returns⟩

end PdInfo

/-- The range of pages that `memory::init` gets. -/
def heapRange : PageRange := ⟨0xC2000000, numPagesHeap⟩

/-- The block of the heap: these pages. -/
def heapBlock : Block :=
  ⟨heapRange.start, heapRange.start, BitVec.ofNat 32 (numPagesHeap * pageSize)⟩

/-- `memory::init` ends with `r`, whatever `pte_start_index` holds. -/
def MemoryInits (pdi : PdInfo) (m : Memory) (pte : Nat) (r : Block × Memory × PdInfo) : Prop :=
  ∃ rounds, ∀ fuel > rounds, memoryInit pdi m fuel pte = .ok r

variable {pdi r : PdInfo} {m : Memory} {pte : Nat}

theorem PdInfo.AllocReturns.memoryInits
    (returns : pdi.AllocReturns numPagesHeap pte heapRange.start r) (m : Memory) :
    MemoryInits pdi m pte (heapBlock, (Block.init m heapBlock.start heapBlock.blockSize).2, r) := by
  obtain ⟨rounds, ends⟩ := returns
  refine ⟨rounds, fun fuel more => ?_⟩
  rw [memoryInit, Heap.init, ends fuel more]
  rfl

theorem PdInfo.Fresh.heapRange (fresh : pdi.Fresh) (pte : Nat) :
    ∃ r, pdi.AllocReturns numPagesHeap pte heapRange.start r := by
  refine fresh.allocPages (by decide) ?_ pte
  rw [fresh.seen]
  decide

/-- What `memory::init` leaves behind is determined. -/
theorem MemoryInits.unique {x y : Block × Memory × PdInfo} (hx : MemoryInits pdi m pte x)
    (hy : MemoryInits pdi m pte y) : x = y := by
  obtain ⟨a, first⟩ := hx
  obtain ⟨b, second⟩ := hy
  have one := first (a + b + 1) (by omega)
  have two := second (a + b + 1) (by omega)
  exact Except.ok.inj (one.symm.trans two)

/-! ## 2. The page tables -/

/-- The memory as the kernel addresses it, through the tables of `paging_init`. -/
def kernelView (m : Memory) : Memory := fun v => m (virtualToPhysical v)

/-- The physical memory under a memory as the kernel addresses it. -/
def physicalView (m : Memory) : Memory := fun p => m (p + virtualMemOffset)

theorem kernelView_add (m : Memory) (p : Word) : kernelView m (p + virtualMemOffset) = m p := by
  rw [kernelView, virtualToPhysical, BitVec.add_sub_cancel]

namespace KernelLayout

/-- The page directory and the page tables, by their physical addresses. -/
inductive TablePage (l : KernelLayout) : Word → Prop
  | directory : TablePage l l.cr3
  | boot {i : Nat} (hi : i < numBootTables) : TablePage l (l.bootTable i)
  | kernel {i : Nat} (hi : i < numDynamicTables) : TablePage l (l.kernelTable i)

/-- The page directory and the page tables are those that `paging_init` leaves. -/
def Mapped (l : KernelLayout) (m : Memory) : Prop := ∃ r, l.Filled numDynamicTables r ∧ r.mem = m

variable {l : KernelLayout} {m m' : Memory}

theorem Mapped.walk (mapped : l.Mapped m) (v : Word) :
    m.walk l.cr3 v = if virtualMemOffset ≤ v then some (virtualToPhysical v, true) else none := by
  obtain ⟨r, filled, rfl⟩ := mapped
  exact filled.walk v

theorem inRange_cell {a x : Word} {i : Nat} (aligned : Aligned a) (hi : i < 1024)
    (here : InRange (cell a i) 4 x) : InRange a 4096 x := by
  have start := cell_toNat aligned hi
  have room := aligned.room
  rw [inRange_iff (by omega)] at here
  rw [inRange_iff room]
  omega

/-- A walk reads the page directory and the page tables only. -/
theorem Mapped.congr (mapped : l.Mapped m)
    (same : ∀ a, l.TablePage a → ∀ x, InRange a 4096 x → m' x = m x) : l.Mapped m' := by
  obtain ⟨r, ⟨⟨boot, zero⟩, tables, table, vaddr, slot⟩, rfl⟩ := mapped
  have entry {a : Word} (page : l.TablePage a) (aligned : Aligned a) {i : Nat} (hi : i < 1024) :
      m'.read32 (cell a i) = r.mem.read32 (cell a i) :=
    read32_congr fun x here => same a page x (inRange_cell aligned hi here)
  refine ⟨{ r with mem := m' },
    ⟨⟨fun i hi => ?_, fun i hi => ?_⟩, fun i hi => ?_, table, vaddr, slot⟩, rfl⟩
  · have index : kernelEntry + i < 1024 := by
      unfold kernelEntry numBootTables at *
      omega
    exact (boot i hi).congr (entry .directory l.aligned_cr3 index)
      fun j hj => entry (.boot hi) (l.aligned_bootTable i) hj
  · have index : i < 1024 := Nat.lt_trans hi (by decide)
    exact (entry .directory l.aligned_cr3 index).trans (zero i hi)
  · have index : firstDynamic + i < 1024 := by
      unfold firstDynamic numDynamicTables numOfPte kernelEntry numBootTables at *
      omega
    exact (tables i hi).congr (entry .directory l.aligned_cr3 index)
      fun j hj => entry (.kernel hi) (l.aligned_kernelTable i) hj

theorem physical_low {a : Word} {n i : Nat} (window : InWindow a n) (hi : i < n) :
    (virtualToPhysical (tableAt a i)).toNat + 4096 ≤ 0x2000000 := by
  obtain ⟨low, high⟩ := window
  have start : (tableAt a i).toNat = a.toNat + 4096 * i := by
    rw [tableAt, BitVec.toNat_add, BitVec.toNat_ofNat]
    omega
  rw [virtualToPhysical_toNat, start]
  omega

/-- The page directory and the page tables lie in the first 32 MiB. -/
theorem TablePage.low {a : Word} (page : l.TablePage a)
    (window : InWindow l.bootTable1 numBootTables) : a.toNat + 4096 ≤ 0x2000000 := by
  cases page with
  | directory =>
      have first := physical_low l.directory_window Nat.zero_lt_one
      rwa [show tableAt l.directory 0 = l.directory from BitVec.add_zero _] at first
  | boot hi => exact physical_low window hi
  | kernel hi => exact physical_low l.kernelTables_window hi

end KernelLayout

/-! ## 3. The system -/

/-- The records of `alloc_pages`, with the ranges that are live, and the heap. -/
structure KernelMemory where
  pages : PageState
  heap : HeapState

inductive MemoryCall
  | kmalloc (bytes : Word) (fuel : Nat)
  | kfree (c : Payload)
  | allocPages (count fuel pte : Nat)
  | freePages (a : PageRange)
  /-- The kernel writes a byte. -/
  | write (x : Word) (v : Byte)

/-- The value of a byte after the call, as far as the calls decide. -/
def MemoryCall.store (x : Word) (old : Byte) : MemoryCall → Byte
  | .write y v => if x = y then v else old
  | _ => old

theorem MemoryCall.store_of_ne {c : MemoryCall} {x : Word} {old : Byte}
    (unwritten : ∀ v, c ≠ .write x v) : c.store x old = old := by
  cases c with
  | write y v => exact if_neg fun same => unwritten v (by rw [same])
  | _ => rfl

/-- What the kernel may write to: a payload, pages, or its own variables. -/
inductive Region
  | payload (c : Payload)
  | pages (a : PageRange)
  | image

/-- The byte belongs to the region. The variables of the kernel lie in the first 32 MiB
and are no page tables. -/
def Region.Covers (l : KernelLayout) : Region → Word → Prop
  | .payload c, x => c.start.toNat ≤ x.toNat ∧ x.toNat < c.start.toNat + c.bytes.toNat
  | .pages a, x => a.Covers (x.toNat / pageSize)
  | .image, x => 0xC0000000 ≤ x.toNat ∧ x.toNat < 0xC2000000 ∧
      ∀ a, l.TablePage a → ¬ InRange a 4096 (virtualToPhysical x)

/-- The call gives the region back. -/
def Region.Releases : Region → MemoryCall → Prop
  | .payload c, .kfree d => c = d
  | .pages a, .freePages b => a = b
  | _, _ => False

namespace KernelMemory

/-- The region is the kernel's. The pages of the heap are not. -/
def Holds (s : KernelMemory) : Region → Prop
  | .payload c => c ∈ s.heap.live
  | .pages a => a ∈ s.pages.live ∧ a ≠ heapRange
  | .image => True

inductive Step (l : KernelLayout) : KernelMemory → MemoryCall → KernelMemory → Prop
  | kmalloc {s : KernelMemory} {n : Word} {fuel : Nat} {heap : HeapState}
      (h : HeapState.Step s.heap (.allocate n fuel) heap) :
      Step l s (.kmalloc n fuel) ⟨s.pages, heap⟩
  | kfree {s : KernelMemory} {c : Payload} {heap : HeapState}
      (h : HeapState.Step s.heap (.free c) heap) : Step l s (.kfree c) ⟨s.pages, heap⟩
  | allocPages {s : KernelMemory} {count fuel pte : Nat} {pages : PageState}
      (h : PageState.Step s.pages (.alloc count fuel pte) pages) :
      Step l s (.allocPages count fuel pte) ⟨pages, s.heap⟩
  | freePages {s : KernelMemory} {a : PageRange} {pages : PageState} (other : a ≠ heapRange)
      (h : PageState.Step s.pages (.free a) pages) : Step l s (.freePages a) ⟨pages, s.heap⟩
  | write {s : KernelMemory} {r : Region} {x : Word} (v : Byte) (held : s.Holds r)
      (covers : r.Covers l x) :
      Step l s (.write x v) ⟨s.pages, s.heap.block, s.heap.mem.write8 x v, s.heap.live⟩

/-- `kmalloc` does not take the last chunk as a whole, and `free_pages` frees ranges that
start in the first 64 KiB of a table. -/
def Allowed (s : KernelMemory) : MemoryCall → Prop
  | .kmalloc n fuel => s.heap.SparesLast (.allocate n fuel)
  | .kfree _ => True
  | .allocPages _ _ _ => True
  | .freePages a => PageState.FreesLow s.pages (.free a)
  | .write _ _ => True

/-- After `memory::init`. -/
def booted (r : Block × Memory × PdInfo) : KernelMemory :=
  ⟨⟨r.2.2, [⟨r.1.start, numPagesHeap⟩]⟩, ⟨r.1, r.2.1, []⟩⟩

theorem booted_mem (r : Block × Memory × PdInfo) : (booted r).heap.mem = r.2.1 := rfl

/-- The records of both allocators are right, and the page tables map what they mapped
after `paging_init`. A byte that is held belongs to one region, to no header of the heap
and to no page table, and may be read and written. -/
structure Sound (l : KernelLayout) (s : KernelMemory) : Prop where
  heap : s.heap.Sound
  pages : s.pages.Bookkept
  disjoint : ∀ a b, s.Holds a → s.Holds b → a ≠ b → ∀ x, a.Covers l x → ¬ b.Covers l x
  headers : ∀ a, s.Holds a → ∀ x, a.Covers l x →
    ¬ HeaderByte s.heap.block.start.toNat (s.heap.block.layout s.heap.mem) x
  tables : ∀ a, s.Holds a → ∀ x, a.Covers l x → ∀ p, l.TablePage p →
    ¬ InRange p 4096 (virtualToPhysical x)
  usable : ∀ a, s.Holds a → ∀ x, a.Covers l x →
    (physicalView s.heap.mem).walk l.cr3 x = some (virtualToPhysical x, true)
  mapped : ∀ v, (physicalView s.heap.mem).walk l.cr3 v =
    if virtualMemOffset ≤ v then some (virtualToPhysical v, true) else none

end KernelMemory

/-- The boot: `paging_init` and then `memory::init`. -/
def kernelMemorySystem (l : KernelLayout) : System KernelMemory MemoryCall where
  start s := ∃ m s' pte r, l.BootMapped m ∧ l.pagingInit ⟨m, .zeroed⟩ = .ok s' ∧
    MemoryInits s'.pdi.info (kernelView s'.mem) pte r ∧ s = .booted r
  step := KernelMemory.Step l

/-! ## 4. The invariant -/

/-- A page belongs to one live range. -/
theorem PageState.Tracked.once {s : PageState} (h : s.Tracked) {a b : PageRange}
    (ha : a ∈ s.live) (hb : b ∈ s.live) {q : Nat} (first : a.Covers q) (second : b.Covers q) :
    a = b := by
  by_contra other
  have counted := h.pages q (h.dynamic a ha q first)
  have hb' : b ∈ s.live.erase a := (List.mem_erase_of_ne (Ne.symm other)).mpr hb
  have rest : 0 < (s.live.erase a).countP (·.Covers q) :=
    List.countP_pos_iff.mpr ⟨b, hb', decide_eq_true second⟩
  rw [(List.perm_cons_erase ha).countP_eq, List.countP_cons,
    if_pos (decide_eq_true first)] at counted
  split at counted <;> omega

namespace KernelMemory

/-- The heap has its pages, and the page tables are in place. -/
structure Tracked (l : KernelLayout) (s : KernelMemory) : Prop where
  heap : s.heap.Tracked
  pages : s.pages.Tracked
  block : s.heap.block = heapBlock
  owned : heapRange ∈ s.pages.live
  mapped : l.Mapped (physicalView s.heap.mem)

variable {l : KernelLayout} {s t : KernelMemory} {x : Word} {a b : Region}

theorem Step.written {v : Byte} (step : Step l s (.write x v) t) :
    ∃ r, s.Holds r ∧ r.Covers l x := by
  cases step with
  | write _ held covers => exact ⟨_, held, covers⟩

namespace Tracked

theorem block_start (h : s.Tracked l) : s.heap.block.start.toNat = 0xC2000000 := by
  rw [h.block]
  rfl

theorem block_size (h : s.Tracked l) : s.heap.block.blockSize.toNat = 0x10000000 := by
  rw [h.block]
  rfl

/-- A payload lies in the pages of the heap. -/
theorem payload_inside (h : s.Tracked l) {c : Payload} (live : c ∈ s.heap.live)
    (covers : (Region.payload c).Covers l x) :
    0xC2000000 ≤ x.toNat ∧ heapRange.Covers (x.toNat / pageSize) := by
  have start := h.block_start
  have size := h.block_size
  obtain ⟨low, high⟩ := h.heap.sound.inside c live
  have large := h.heap.sound.large c live
  obtain ⟨after, before⟩ := covers
  have first : heapRange.start.toNat = 0xC2000000 := rfl
  have count : heapRange.count = 65536 := rfl
  refine ⟨by omega, ?_⟩
  unfold PageRange.Covers pageSize
  rw [first, count]
  omega

/-- Pages that are held are dynamic, and none of the heap's. -/
theorem pages_outside (h : s.Tracked l) {a : PageRange} (held : s.Holds (.pages a))
    (covers : (Region.pages a).Covers l x) :
    0xC2000000 ≤ x.toNat ∧ ¬ heapRange.Covers (x.toNat / pageSize) := by
  obtain ⟨live, other⟩ := held
  have dynamic := h.pages.dynamic a live _ covers
  refine ⟨?_, fun both => other (h.pages.once live h.owned covers both)⟩
  unfold Dynamic firstDynamic numOfPte pageSize at dynamic
  omega

/-- No byte belongs to two regions. -/
theorem disjoint (h : s.Tracked l) (ha : s.Holds a) (hb : s.Holds b) (other : a ≠ b)
    (first : a.Covers l x) : ¬ b.Covers l x := by
  intro second
  cases a with
  | payload c =>
      have inHeap := h.payload_inside ha first
      cases b with
      | payload d =>
          have same := h.heap.once ha hb first.1 first.2 second.1 second.2
          exact other (congrArg Region.payload same)
      | pages b => exact (h.pages_outside hb second).2 inHeap.2
      | image => exact absurd second.2.1 (Nat.not_lt.mpr inHeap.1)
  | pages a =>
      have outside := h.pages_outside ha first
      cases b with
      | payload d => exact outside.2 (h.payload_inside hb second).2
      | pages b => exact other (congrArg Region.pages (h.pages.once ha.1 hb.1 first second))
      | image => exact absurd second.2.1 (Nat.not_lt.mpr outside.1)
  | image =>
      cases b with
      | payload d => exact absurd first.2.1 (Nat.not_lt.mpr (h.payload_inside hb second).1)
      | pages b => exact absurd first.2.1 (Nat.not_lt.mpr (h.pages_outside hb second).1)
      | image => exact other rfl

/-- What a region covers is no header. -/
theorem foreign (h : s.Tracked l) (held : s.Holds a) (covers : a.Covers l x) :
    s.heap.Foreign x := by
  have start := h.block_start
  have size := h.block_size
  cases a with
  | payload c => exact .inr ⟨c, held, covers⟩
  | pages a =>
      obtain ⟨low, outside⟩ := h.pages_outside held covers
      have first : heapRange.start.toNat = 0xC2000000 := rfl
      have count : heapRange.count = 65536 := rfl
      unfold PageRange.Covers pageSize at outside
      rw [first, count] at outside
      exact .inl (by omega)
  | image =>
      have below := covers.2.1
      exact .inl (by omega)

theorem kernel_toNat {y : Word} (low : y.toNat < 0x2000000) :
    (y + virtualMemOffset).toNat = y.toNat + 0xC0000000 := by
  have offset : virtualMemOffset.toNat = 0xC0000000 := rfl
  rw [BitVec.toNat_add, offset]
  omega

/-- Nor is a page table. -/
theorem table_foreign (h : s.Tracked l) (window : InWindow l.bootTable1 numBootTables) {p y : Word}
    (page : l.TablePage p) (here : InRange p 4096 y) : s.heap.Foreign (y + virtualMemOffset) := by
  have start := h.block_start
  have low := page.low window
  rw [inRange_iff (by omega)] at here
  have address := @kernel_toNat y (by omega)
  exact .inl (.inl (by omega))

/-- A region covers no page table. -/
theorem table_not_covered (h : s.Tracked l) (window : InWindow l.bootTable1 numBootTables)
    {p y : Word} (page : l.TablePage p) (here : InRange p 4096 y) (held : s.Holds a) :
    ¬ a.Covers l (y + virtualMemOffset) := by
  intro covers
  have low := page.low window
  have here' := here
  rw [inRange_iff (by omega)] at here'
  have address := @kernel_toNat y (by omega)
  cases a with
  | payload c =>
      have high := (h.payload_inside held covers).1
      omega
  | pages a =>
      have high := (h.pages_outside held covers).1
      omega
  | image =>
      refine covers.2.2 p page ?_
      rwa [virtualToPhysical, BitVec.add_sub_cancel]

/-- A byte that is no header changes by a write only. -/
theorem byte_after (h : s.Tracked l) {c : MemoryCall} (step : Step l s c t)
    (foreign : s.heap.Foreign x) : t.heap.mem x = c.store x (s.heap.mem x) := by
  cases step with
  | kmalloc step => exact h.heap.byte_after step foreign
  | kfree step => exact h.heap.byte_after step foreign
  | allocPages step => rfl
  | freePages other step => rfl
  | write v held covers => rfl

theorem mapped_step (h : s.Tracked l) (window : InWindow l.bootTable1 numBootTables)
    {c : MemoryCall} (step : Step l s c t) : l.Mapped (physicalView t.heap.mem) := by
  refine h.mapped.congr fun p page y here => ?_
  have after := h.byte_after step (h.table_foreign window page here)
  rw [MemoryCall.store_of_ne] at after
  · exact after
  · rintro v rfl
    obtain ⟨r, held, covers⟩ := step.written
    exact h.table_not_covered window page here held covers

theorem step (h : s.Tracked l) (window : InWindow l.bootTable1 numBootTables) {c : MemoryCall}
    (allowed : s.Allowed c) (step : Step l s c t) : t.Tracked l := by
  have mapped := h.mapped_step window step
  cases step with
  | kmalloc step =>
      have tracked := h.heap.step (c := .allocate _ _) allowed step
      cases step with
      | allocate hr => exact ⟨tracked, h.pages, h.block, h.owned, mapped⟩
  | kfree step =>
      have tracked := h.heap.step (c := .free _) trivial step
      cases step with
      | free live => exact ⟨tracked, h.pages, h.block, h.owned, mapped⟩
  | allocPages step =>
      have tracked := h.pages.step (c := .alloc _ _ _) trivial step
      cases step with
      | alloc hc hr =>
          refine ⟨h.heap, tracked, h.block, ?_, mapped⟩
          unfold PageState.returned
          split
          · exact h.owned
          · exact List.mem_cons_of_mem _ h.owned
  | freePages other step =>
      have tracked := h.pages.step (c := .free _) allowed step
      cases step with
      | free live hr =>
          exact ⟨h.heap, tracked, h.block, (List.mem_erase_of_ne other.symm).mpr h.owned, mapped⟩
  | write v held covers =>
      exact ⟨h.heap.write v (h.foreign held covers), h.pages, h.block, h.owned, mapped⟩

/-- What a region covers lies above `VIRTUAL_MEM_OFFSET`. -/
theorem high_of_covers (h : s.Tracked l) (held : s.Holds a) (covers : a.Covers l x) :
    virtualMemOffset ≤ x := by
  have offset : virtualMemOffset.toNat = 0xC0000000 := rfl
  rw [BitVec.le_def, offset]
  cases a with
  | payload c =>
      have high := (h.payload_inside held covers).1
      omega
  | pages a =>
      have high := (h.pages_outside held covers).1
      omega
  | image => exact covers.1

theorem sound (h : s.Tracked l) (window : InWindow l.bootTable1 numBootTables) : s.Sound l where
  heap := h.heap.sound
  pages := h.pages.toBookkept
  disjoint _ _ ha hb other _ first := h.disjoint ha hb other first
  headers _ held _ covers := h.heap.not_header (h.foreign held covers)
  tables _ held x covers p page here := by
    refine h.table_not_covered window page here held ?_
    rwa [virtualToPhysical, BitVec.sub_add_cancel]
  usable _ held x covers := by
    rw [h.mapped.walk, if_pos (h.high_of_covers held covers)]
  mapped := h.mapped.walk

end Tracked

end KernelMemory

/-! ## 5. The boot -/

theorem Block.init_other {a size x : Word} (outside : ¬ InRange a 16 x) :
    (Block.init m a size).2 x = m x := onlyHeader_putHeader m a _ x outside

/-- No page is held on fresh records. -/
theorem PdInfo.Fresh.tracked (fresh : pdi.Fresh) : PageState.Tracked ⟨pdi, []⟩ where
  pages q dynamic := by
    rw [show PageState.pdi ⟨pdi, []⟩ = pdi from rfl, fresh.isTaken dynamic]
    rfl
  counted := fresh.counted
  dynamic _ mem := absurd mem List.not_mem_nil
  nonempty _ mem := absurd mem List.not_mem_nil

/-- What `memory::init` leaves. -/
def heapPlaced (pdi : PdInfo) (m : Memory) : Block × Memory × PdInfo :=
  (heapBlock, (Block.init m heapBlock.start heapBlock.blockSize).2, pdi)

theorem KernelMemory.Tracked.booted {l : KernelLayout}
    (window : InWindow l.bootTable1 numBootTables) (fresh : pdi.Fresh) (mapped : l.Mapped m)
    (returns : pdi.AllocReturns numPagesHeap pte heapRange.start r) :
    (KernelMemory.booted (heapPlaced r (kernelView m))).Tracked l := by
  obtain ⟨rounds, ends⟩ := returns
  have pages := fresh.tracked.alloc (by decide) (ends _ (Nat.lt_succ_self _))
  rw [PageState.returned, if_neg (by decide)] at pages
  refine ⟨.initial (by decide) (by decide) (by decide), pages, rfl, List.mem_cons_self, ?_⟩
  refine mapped.congr fun p page y here => ?_
  have low := page.low window
  rw [inRange_iff (by omega)] at here
  have address := @KernelMemory.Tracked.kernel_toNat y (by omega)
  have outside : ¬ InRange heapBlock.start 16 (y + virtualMemOffset) := by
    rw [inRange_iff (by decide), address]
    have start : heapBlock.start.toNat = 0xC2000000 := rfl
    omega
  rw [physicalView, KernelMemory.booted_mem, heapPlaced]
  dsimp only
  rw [Block.init_other outside, kernelView_add]

/-- The heap after `memory::init`. -/
theorem heapPlaced_layout (pdi : PdInfo) (m : Memory) :
    heapBlock.layout (heapPlaced pdi m).2.1 = [⟨0x10000000 - 16, false⟩] :=
  Block.init_layout m (by decide) (by decide)

theorem KernelLayout.paging_fresh {l : KernelLayout} {m : Memory} {s' : PagingState}
    (boot : l.BootMapped m) (run : l.pagingInit ⟨m, .zeroed⟩ = .ok s') :
    s'.pdi.info.Fresh ∧ l.Mapped s'.mem := by
  obtain ⟨t, filled, mem⟩ := (KernelLayout.pagingInit_meets boot).post s' run
  exact ⟨fun _ hpde => pagingInit_info run hpde, t, filled, mem.symm⟩

/-- From the memory that `boot.s` leaves, `paging_init` and `memory::init` return. The
heap is then one free chunk in the lowest dynamic pages, no other page is taken, and
the page tables map what they mapped before. -/
theorem memory_init (l : KernelLayout) (m : Memory) (boot : l.BootMapped m)
    (window : InWindow l.bootTable1 numBootTables) (pte : Nat) :
    ∃ s' r, l.pagingInit ⟨m, .zeroed⟩ = .ok s' ∧
      MemoryInits s'.pdi.info (kernelView s'.mem) pte r ∧
      r.1 = heapBlock ∧ r.1.layout r.2.1 = [⟨0x10000000 - 16, false⟩] ∧
      (∀ q, Dynamic q → (r.2.2.isTaken q = true ↔ heapRange.Covers q)) ∧
      (KernelMemory.booted r).Sound l := by
  obtain ⟨s', run, -⟩ := pagingInit_map l ⟨m, .zeroed⟩ boot
  obtain ⟨fresh, mapped⟩ := l.paging_fresh boot run
  obtain ⟨r, returns⟩ := fresh.heapRange pte
  have tracked := KernelMemory.Tracked.booted window fresh mapped returns
  refine ⟨s', heapPlaced r (kernelView s'.mem), run, returns.memoryInits _, rfl,
    heapPlaced_layout r _, fun q dynamic => ?_, tracked.sound window⟩
  have counted : [heapRange].countP (·.Covers q) = if r.isTaken q then 1 else 0 :=
    tracked.pages.pages q dynamic
  show r.isTaken q = true ↔ heapRange.Covers q
  cases taken : r.isTaken q with
  | true => simpa [taken] using counted
  | false => simpa [taken] using counted

/-- The kernel of the sample layout. -/
theorem memory_init_sample :
    ∃ s' r, KernelLayout.sample.pagingInit ⟨KernelLayout.sampleMemory, .zeroed⟩ = .ok s' ∧
      MemoryInits s'.pdi.info (kernelView s'.mem) 5 r ∧
      r.1.layout r.2.1 = [⟨0x10000000 - 16, false⟩] ∧
      r.2.2.isTaken (0xC2000000 / pageSize) = true := by
  obtain ⟨s', r, run, inits, -, layout, taken, -⟩ := memory_init KernelLayout.sample
    KernelLayout.sampleMemory KernelLayout.sample_bootMapped (by decide) 5
  exact ⟨s', r, run, inits, layout, (taken _ (by decide)).mpr (by decide)⟩

/-! ## 6. Runs -/

theorem kernelMemory_tracked {l : KernelLayout} (window : InWindow l.bootTable1 numBootTables)
    {s : KernelMemory} (h : (kernelMemorySystem l).Reachable KernelMemory.Allowed s) :
    s.Tracked l := by
  refine h.invariant (fun t first => ?_) fun _ _ _ tracked allowed step =>
    KernelMemory.Tracked.step tracked window allowed step
  obtain ⟨m, s', pte, r, boot, run, inits, rfl⟩ := first
  obtain ⟨fresh, mapped⟩ := l.paging_fresh boot run
  obtain ⟨pdi, returns⟩ := fresh.heapRange pte
  obtain rfl := inits.unique (returns.memoryInits _)
  exact .booted window fresh mapped returns

theorem kernel_memory_sound (l : KernelLayout) (window : InWindow l.bootTable1 numBootTables)
    {s : KernelMemory} (h : (kernelMemorySystem l).Reachable KernelMemory.Allowed s) : s.Sound l :=
  (kernelMemory_tracked window h).sound window

/-- The sample kernel after `kmalloc(4)`. -/
theorem sample_kmalloc :
    ∃ s, (kernelMemorySystem .sample).Reachable KernelMemory.Allowed s ∧
      s.heap.live = [⟨0xC2000010, 4⟩] ∧
      s.heap.block.layout s.heap.mem = [⟨4, true⟩, ⟨0x10000000 - 36, false⟩] := by
  have window : InWindow KernelLayout.sample.bootTable1 numBootTables := by decide
  obtain ⟨s', r, run, inits, block, layout, -, sound⟩ := memory_init KernelLayout.sample
    KernelLayout.sampleMemory KernelLayout.sample_bootMapped window 0
  have wf : r.1.WellFormed r.2.1 := sound.heap.heap
  have start : (kernelMemorySystem .sample).Reachable KernelMemory.Allowed (.booted r) :=
    .start ⟨_, s', 0, r, KernelLayout.sample_bootMapped, run, inits, rfl⟩
  have granted := wf.allocate_single (n := 4) layout (by decide) 1
  have spares : fillsLast 16 8 (4 : Word).toNat (r.1.layout r.2.1) = false := by
    rw [layout]
    decide
  have place : addr (r.1.start.toNat + 16) = 0xC2000010 := by
    rw [block]
    rfl
  rcases wf.allocate (.inr spares) granted with ⟨none, -⟩ | ⟨o, l, found, -, -, cut⟩
  · rw [layout] at none
    cases none
  · rw [layout] at found
    cases found
    refine ⟨_, start.step (i := .kmalloc 4 2) (.inr spares) (.kmalloc (.allocate granted)), ?_, cut⟩
    rw [place]
    rfl

theorem kernel_memory_sound_sample :
    ∃ s, s.heap.live = [⟨0xC2000010, 4⟩] ∧ KernelMemory.Sound .sample s := by
  obtain ⟨s, reached, live, -⟩ := sample_kmalloc
  exact ⟨s, live, kernel_memory_sound .sample (by decide) reached⟩

namespace KernelMemory

variable {l : KernelLayout} {s t : KernelMemory} {r : Region} {x : Word}

/-- A region is held until it is given back. -/
theorem Step.holds {c : MemoryCall} (step : Step l s c t) (held : s.Holds r)
    (kept : ¬ r.Releases c) : t.Holds r := by
  -- one case for each call; it can only add to the live lists, or take away what it releases
  cases step with
  | kmalloc step =>
      cases step with
      | allocate hr =>
          cases r with
          | payload d =>
              show d ∈ (if _ then _ else _)
              split
              · exact held
              · exact List.mem_cons_of_mem _ held
          | pages a => exact held
          | image => trivial
  | kfree step =>
      cases step with
      | free live =>
          cases r with
          | payload d => exact (List.mem_erase_of_ne kept).mpr held
          | pages a => exact held
          | image => trivial
  | allocPages step =>
      cases step with
      | alloc hc hr =>
          cases r with
          | payload d => exact held
          | pages a =>
              refine ⟨?_, held.2⟩
              show a ∈ PageState.returned _ _ _
              unfold PageState.returned
              split
              · exact held.1
              · exact List.mem_cons_of_mem _ held.1
          | image => trivial
  | freePages other step =>
      cases step with
      | free live hr =>
          cases r with
          | payload d => exact held
          | pages a => exact ⟨(List.mem_erase_of_ne kept).mpr held.1, held.2⟩
          | image => trivial
  | write v held' covers =>
      cases r with
      | payload d => exact held
      | pages a => exact held
      | image => trivial

end KernelMemory

/-- As long as a region is not given back, each of its bytes holds what was last written
to it, whatever else is allocated, freed and written in the meantime. -/
theorem held_data_kept (l : KernelLayout) (window : InWindow l.bootTable1 numBootTables)
    {s t : KernelMemory} {calls : List MemoryCall} {r : Region} {x : Word}
    (h : (kernelMemorySystem l).Reachable KernelMemory.Allowed s)
    (run : (kernelMemorySystem l).Exec KernelMemory.Allowed s calls t) (held : s.Holds r)
    (covers : r.Covers l x) (kept : ∀ c ∈ calls, ¬ r.Releases c) :
    t.Holds r ∧ t.heap.mem x = calls.foldl (MemoryCall.store x) (s.heap.mem x) := by
  induction run with
  | nil => exact ⟨held, rfl⟩
  | @snoc u u' ls c run allowed step ih =>
      obtain ⟨still, byte⟩ := ih fun c mem => kept c (List.mem_append_left _ mem)
      have tracked := kernelMemory_tracked window (h.exec run)
      refine ⟨KernelMemory.Step.holds step still (kept c (by simp)), ?_⟩
      rw [tracked.byte_after step (tracked.foreign still covers), byte, List.foldl_append]
      rfl

/-- Another payload is allocated, and the first byte of the held one is written. -/
theorem held_data_kept_sample :
    ∃ s t, s.heap.live = [⟨0xC2000010, 4⟩] ∧ t.heap.mem 0xC2000010 = 7 ∧
      t.heap.mem 0xC2000011 = s.heap.mem 0xC2000011 ∧
      (kernelMemorySystem .sample).Exec KernelMemory.Allowed s
        [.kmalloc 8 3, .write 0xC2000010 7] t := by
  have window : InWindow KernelLayout.sample.bootTable1 numBootTables := by decide
  obtain ⟨s, reached, live, layout⟩ := sample_kmalloc
  have tracked := kernelMemory_tracked window reached
  have enough : (s.heap.block.layout s.heap.mem).length < 3 := by
    rw [layout]
    decide
  obtain ⟨⟨p, m⟩, granted, -⟩ := (tracked.heap.heap.allocate_cases 8 3).run enough
  have spares : fillsLast 16 8 (8 : Word).toNat (s.heap.block.layout s.heap.mem) = false := by
    rw [layout]
    decide
  have held : s.Holds (.payload ⟨0xC2000010, 4⟩) := by
    show _ ∈ s.heap.live
    rw [live]
    exact List.mem_singleton_self _
  have first := KernelMemory.Step.kmalloc (l := .sample) (s := s) (.allocate granted)
  have second := KernelMemory.Step.write (l := .sample) (x := 0xC2000010) 7
    (first.holds held not_false) ⟨by decide, by decide⟩
  have run := ((System.Exec.nil s).snoc (S := kernelMemorySystem .sample)
    (show KernelMemory.Allowed s (.kmalloc 8 3) from .inr spares) first).snoc
    (show KernelMemory.Allowed _ (.write 0xC2000010 7) from trivial) second
  have kept : ∀ c ∈ [MemoryCall.kmalloc 8 3, .write 0xC2000010 7],
      ¬ (Region.payload ⟨0xC2000010, 4⟩).Releases c := by
    intro c mem
    rcases List.mem_pair.mp mem with rfl | rfl <;> exact not_false
  have written := held_data_kept .sample window (x := 0xC2000010) reached run held
    ⟨by decide, by decide⟩ kept
  have other := held_data_kept .sample window (x := 0xC2000011) reached run held
    ⟨by decide, by decide⟩ kept
  exact ⟨s, _, live, written.2, other.2, run⟩

end Bodos
