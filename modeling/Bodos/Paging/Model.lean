import Bodos.Containers.PriorityQueue
import Bodos.Lib.Memory

/-!
# Pages

`alloc_pages` and `free_pages` of `arch/i386/paging.c` on the records that say
which pages are taken. The page tables themselves are left out: these functions
do not touch them.

The search of `alloc_pages` is modelled with all its loops. The outer one need
not end, so it has a bound on its rounds. An index outside `entries` is a fault.
-/

namespace Bodos

open Mem32

/-- `struct page_table_info` without the pointer to the table. -/
structure PageTableInfo where
  numOfFreePages : Nat
  taken : Nat → Bool

/-- `struct pd_info`: an entry for each page directory index. -/
abbrev PdInfo := Nat → PageTableInfo

def pageSize : Nat := 4096
def numOfPde : Nat := 1024
def numOfPte : Nat := 1024

/-- `KERNEL_ENTRY_IN_PAGEDIR + NUM_KERNEL_PAGE_TABLES_AT_BOOT`. -/
def firstDynamic : Nat := 768 + 8

/-- The records that `paging_init` leaves. -/
def pagingInit : PdInfo := fun pde =>
  if firstDynamic ≤ pde then ⟨numOfPte, fun _ => false⟩ else ⟨0, fun _ => false⟩

def virtualAddr (pde pte : Nat) : Word :=
  BitVec.ofNat 32 (pageSize * numOfPte * pde + pageSize * pte)

/-! ## 1. The search of `alloc_pages` -/

/-- The variables of the loops over the pages of a table: the page `i`, `c`,
`sofarCount`, `num_pages_collected`, `page_table_crosses`, `pte_start_index`
and `keepGoing`. -/
structure TableScan where
  i : Nat
  c : Nat
  sofar : Nat
  num : Nat
  crosses : Nat
  pte : Nat
  keepGoing : Bool

/-- The body of the `for` loop, with its `i++`. -/
def TableScan.body (taken : Nat → Bool) (s : TableScan) : TableScan :=
  if taken s.i then
    if s.crosses > 0 then
      { s with i := s.i + 1, c := 0, sofar := 0, num := 0, crosses := 0, keepGoing := false }
    else { s with i := s.i + 1, keepGoing := false }
  else { s with i := s.i + 1, c := s.c + 1 }

/-- The `for` loop, for at most `fuel` rounds. -/
def forLoop (taken : Nat → Bool) (count : Nat) : Nat → TableScan → TableScan
  | 0, s => s
  | fuel + 1, s =>
    if s.i < numOfPte ∧ s.sofar + s.c < count ∧ s.keepGoing = true then
      forLoop taken count fuel (s.body taken)
    else s

/-- What a round of the `while` loop sets before the `for` loop. -/
def TableScan.enter (s : TableScan) : TableScan :=
  { s with
    pte := if s.crosses = 0 then s.i else s.pte
    keepGoing := true
    c := 0
    sofar := s.num }

/-- The `while` loop over the pages of a table, for at most `fuel` rounds. -/
def whileLoop (taken : Nat → Bool) (count : Nat) : Nat → TableScan → TableScan
  | 0, s => s
  | fuel + 1, s =>
    if s.i < numOfPte then
      let s := forLoop taken count numOfPte s.enter
      if s.keepGoing then
        let s := { s with num := s.sofar + s.c }
        if s.num = count then s else whileLoop taken count fuel s
      else whileLoop taken count fuel s
    else s

/-- The variables of the loop over the tables. -/
structure Search where
  num : Nat
  crosses : Nat
  pte : Nat
  possible : Bool

/-- The `for` loop over the tables `pdes`: the indices `pde_start_index` and
`pte_start_index` where it is left by `break`, else the variables at its end. -/
def tableLoop (pdi : PdInfo) (count : Nat) : List Nat → Search → (Nat × Nat) ⊕ Search
  | [], s => .inr s
  | pde :: pdes, s =>
    if (pdi pde).numOfFreePages ≠ 0 then
      let t := whileLoop (pdi pde).taken count numOfPte ⟨0, 0, 0, s.num, s.crosses, s.pte, true⟩
      if t.num = count then .inl (pde - t.crosses, t.pte)
      else
        tableLoop pdi count pdes
          { num := t.num
            crosses := if t.keepGoing then t.crosses + 1 else t.crosses
            pte := t.pte
            possible := if pde = numOfPde then false else s.possible }
    else tableLoop pdi count pdes
      { s with possible := if pde = numOfPde then false else s.possible }

/-- The indices of the dynamic tables. -/
def dynamicPdes : List Nat := List.range' firstDynamic (numOfPde - firstDynamic)

/-- The outer loop, for at most `fuel` rounds: `none` where it has not ended, and
`some none` where it ends without `possible`. -/
def searchLoop (pdi : PdInfo) (count : Nat) : Nat → Search → Option (Option (Nat × Nat))
  | 0, _ => none
  | fuel + 1, s =>
    if s.possible then
      match tableLoop pdi count dynamicPdes { s with crosses := 0 } with
      | .inl start => some (some start)
      | .inr s => searchLoop pdi count fuel s
    else some none

/-- The search for `count ≥ 1` pages; `pte_start_index` is not initialized. -/
def search (pdi : PdInfo) (count fuel pte : Nat) : Option (Option (Nat × Nat)) :=
  searchLoop pdi count fuel ⟨0, 0, pte, true⟩

/-! ## 2. Marking and freeing -/

/-- The page after `(pde, pte)`. -/
def nextPage (pde pte : Nat) : Nat × Nat :=
  if pte + 1 = numOfPte then (pde + 1, 0) else (pde, pte + 1)

/-- Sets the flag of a page and the counter of its table. -/
def PdInfo.setTaken (pdi : PdInfo) (pde pte : Nat) (b : Bool) (free : Nat) : PdInfo := fun d =>
  if d = pde then ⟨free, fun e => if e = pte then b else (pdi pde).taken e⟩ else pdi d

/-- The loop that marks `n` pages from `(pde, pte)` on. The counter has 16 bits. -/
def markLoop : Nat → PdInfo → Nat → Nat → Except Fault PdInfo
  | 0, pdi, _, _ => .ok pdi
  | n + 1, pdi, pde, pte =>
    if pde < numOfPde then
      if (pdi pde).taken pte then .error .hang
      else
        let pdi :=
          PdInfo.setTaken pdi pde pte true (((pdi pde).numOfFreePages + (2 ^ 16 - 1)) % 2 ^ 16)
        markLoop n pdi (nextPage pde pte).1 (nextPage pde pte).2
    else .error .outOfBounds

/-- `alloc_pages`, if the search ends within `fuel` rounds. The address `0` is `NULL`. -/
def allocPages (pdi : PdInfo) (count fuel pte : Nat) : Except Fault (Word × PdInfo) :=
  match search pdi count fuel pte with
  | none => .error .outOfFuel
  | some none => .ok (0, pdi)
  | some (some (pdeStart, pteStart)) => do
    let pdi ← markLoop count pdi pdeStart pteStart
    return (virtualAddr pdeStart pteStart, pdi)

def calcPdOffset (start : Word) : Nat := start.toNat / (numOfPte * pageSize) % 2 ^ 16

/-- The cast to `uint16_t` binds tighter than the division. -/
def calcPtOffset (start : Word) : Nat :=
  start.toNat % (numOfPte * pageSize) % 2 ^ 16 / pageSize

/-- The loop that frees `n` pages from `(pde, pte)` on. -/
def freeLoop : Nat → PdInfo → Nat → Nat → Except Fault PdInfo
  | 0, pdi, _, _ => .ok pdi
  | n + 1, pdi, pde, pte =>
    if pde < numOfPde then
      let pdi := PdInfo.setTaken pdi pde pte false (((pdi pde).numOfFreePages + 1) % 2 ^ 16)
      freeLoop n pdi (nextPage pde pte).1 (nextPage pde pte).2
    else .error .outOfBounds

def freePages (pdi : PdInfo) (start : Word) (count : Nat) : Except Fault PdInfo :=
  freeLoop count pdi (calcPdOffset start) (calcPtOffset start)

end Bodos
