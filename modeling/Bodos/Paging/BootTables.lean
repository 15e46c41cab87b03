import Bodos.Paging.AddressMap

/-!
# The boot tables

The loop of `boot.s` that fills the page tables at `boot_page_table1`. It runs
with paging off, so its addresses are physical. It has two exits: the comparison
of `%esi`, and the countdown of `%ecx` in `loop`, which the code does not set.

Results:
1. `mapLoop_eq`: the loop makes as many rounds as both exits allow.
2. `bootTables_iff`: the tables are filled exactly if `%ecx` was zero or at least
   the number of entries, or the entries that are left out were right before.
3. `bootMapped_start`: from there, the stores behind the loop leave the map that
   `paging_init` starts from.
-/

namespace Bodos

open Mem32 Memory

/-- The registers of the loop, and the memory. -/
structure BootCpu where
  edi : Word
  esi : Word
  ecx : Word
  edx : Word
  mem : Memory

/-! ## 1. The code -/

/-- From the comparison to `loop`, without the jumps. -/
def BootCpu.round (c : BootCpu) : BootCpu :=
  let edx := c.esi ||| 0x003
  { edi := c.edi + 4
    esi := c.esi + 4096
    ecx := c.ecx - 1
    edx
    mem := c.mem.write32 c.edi edx }

/-- The loop at label 1, for at most `fuel` rounds. -/
def mapLoop : Nat → BootCpu → Option BootCpu
  | 0, _ => none
  | fuel + 1, c =>
    if (0xC2000000 - 0xC0000000 : Word).sle c.esi then some c
    else
      let c := c.round
      if c.ecx ≠ 0 then mapLoop fuel c else some c

/-- `_start` up to the loop, with what `%ecx` and `%edx` hold. -/
def bootStart (bootTable1 ecx edx : Word) (m : Memory) : BootCpu where
  edi := virtualToPhysical bootTable1
  esi := 0
  ecx := ecx
  edx := edx
  mem := m

namespace KernelLayout

/-- Eight of the stores at label 3: the tables, from the entry `first` on. -/
def storeTables (l : KernelLayout) (first : Nat) (m : Memory) : Memory :=
  (List.range numBootTables).foldl
    (fun m i => m.write32 (cell l.cr3 (first + i)) (l.bootTable i + 0x003)) m

/-- The stores at label 3, for the lowest addresses and for the kernel's. -/
def storeDirectory (l : KernelLayout) (m : Memory) : Memory :=
  l.storeTables kernelEntry (l.storeTables 0 m)

end KernelLayout

/-! ## 2. The rounds -/

/-- The entries of the eight tables. -/
def numBootEntries : Nat := 8 * 1024

/-- Page `i`, present and writable. -/
def bootEntry (i : Nat) : Word := BitVec.ofNat 32 (4096 * i) ||| 0x003

/-- The loop is left by the comparison, or by `loop` when `%ecx` reaches zero. -/
def bootRounds (ecx : Word) : Nat :=
  if ecx = 0 then numBootEntries else min numBootEntries ecx.toNat

variable {t ecx edx : Word} {m : Memory} {n : Nat}

/-- The state after `n` rounds. -/
structure AfterRounds (t ecx : Word) (m : Memory) (n : Nat) (c : BootCpu) : Prop where
  edi : c.edi = cell t n
  esi : c.esi = BitVec.ofNat 32 (4096 * n)
  ecx : c.ecx = ecx - BitVec.ofNat 32 n
  entries : ∀ i < n, c.mem.read32 (cell t i) = bootEntry i
  rest : ∀ i < numBootEntries, n ≤ i → c.mem.read32 (cell t i) = m.read32 (cell t i)
  beyond : ∀ x, ¬ InRange t (4 * numBootEntries) x → c.mem x = m x

/-- The words of the tables do not overlap. -/
theorem apart_entries (t : Word) {i j : Nat} (hi : i < numBootEntries) (hj : j < numBootEntries)
    (ne : i ≠ j) : Apart (cell t i) 4 (cell t j) 4 := by
  unfold Apart cell numBootEntries at *
  bv_omega

theorem inRange_entry {i : Nat} (hi : i < numBootEntries) {x : Word} (hx : InRange (cell t i) 4 x) :
    InRange t (4 * numBootEntries) x := by
  unfold InRange cell numBootEntries at *
  bv_omega

theorem afterRounds_zero :
    AfterRounds (virtualToPhysical t) ecx m 0 (bootStart t ecx edx m) where
  edi := by simp [bootStart, cell]
  esi := rfl
  ecx := by simp [bootStart]
  entries i hi := absurd hi (Nat.not_lt_zero i)
  rest _ _ _ := rfl
  beyond _ _ := rfl

/-- A round fills the next entry. -/
theorem AfterRounds.round {c : BootCpu} (after : AfterRounds t ecx m n c)
    (hn : n < numBootEntries) : AfterRounds t ecx m (n + 1) c.round where
  edi := by
    show c.edi + 4 = _
    rw [after.edi, cell, cell]
    bv_omega
  esi := by
    show c.esi + 4096 = _
    rw [after.esi]
    bv_omega
  ecx := by
    show c.ecx - 1 = _
    rw [after.ecx]
    bv_omega
  entries i hi := by
    show (c.mem.write32 c.edi _).read32 _ = _
    rw [after.edi]
    cases Nat.lt_or_eq_of_le (Nat.le_of_lt_succ hi) with
    | inl earlier =>
        have apart := apart_entries t hn (Nat.lt_trans earlier hn) (Nat.ne_of_gt earlier)
        rw [read32_write32_of_apart apart]
        exact after.entries i earlier
    | inr last =>
        rw [last, read32_write32_same, after.esi]
        rfl
  rest i hi later := by
    show (c.mem.write32 c.edi _).read32 _ = _
    rw [after.edi, read32_write32_of_apart (apart_entries t hn hi (Nat.ne_of_lt later))]
    exact after.rest i hi (Nat.le_of_succ_le later)
  beyond x outside := by
    show c.mem.write32 c.edi _ x = _
    rw [after.edi, write32_frame fun inside => outside (inRange_entry hn inside)]
    exact after.beyond x outside

/-- The comparison ends the loop behind the last entry. -/
theorem AfterRounds.ends_iff {c : BootCpu} (after : AfterRounds t ecx m n c)
    (hn : n ≤ numBootEntries) :
    (0xC2000000 - 0xC0000000 : Word).sle c.esi = true ↔ n = numBootEntries := by
  have small : (BitVec.ofNat 32 (4096 * n)).toNat = 4096 * n := by
    rw [BitVec.toNat_ofNat, Nat.mod_eq_of_lt]
    unfold numBootEntries at hn
    omega
  rw [after.esi, BitVec.sle_eq_decide, decide_eq_true_iff, BitVec.toInt_eq_toNat_cond,
    BitVec.toInt_eq_toNat_cond, small]
  unfold numBootEntries at *
  simp only [BitVec.reduceSub, BitVec.reduceToNat]
  split <;> omega

theorem bootRounds_le (ecx : Word) : bootRounds ecx ≤ numBootEntries := by
  unfold bootRounds
  split
  · exact le_rfl
  · exact Nat.min_le_left _ _

/-- `loop` falls through behind a round exactly if this was the last one that
`%ecx` allows. -/
theorem AfterRounds.loop_iff {c : BootCpu} (after : AfterRounds t ecx m (n + 1) c)
    (hn : n + 1 ≤ numBootEntries) : c.ecx = 0 ↔ n + 1 = ecx.toNat := by
  rw [after.ecx]
  unfold numBootEntries at hn
  constructor
  · intro zero
    bv_omega
  · intro last
    bv_omega

/-- The rest of the loop, from `n` rounds on. -/
theorem mapLoop_from (left : Nat) {c : BootCpu} (after : AfterRounds t ecx m n c)
    (sum : n + left = numBootEntries) (bound : n ≤ bootRounds ecx)
    (going : n = bootRounds ecx → n = numBootEntries) :
    ∃ c', (∀ fuel > left, mapLoop fuel c = some c') ∧ AfterRounds t ecx m (bootRounds ecx) c' := by
  induction left generalizing n c with
  | zero =>
      have all : n = numBootEntries := sum
      have rounds : bootRounds ecx = n := Nat.le_antisymm (all ▸ bootRounds_le ecx) bound
      refine ⟨c, fun fuel enough => ?_, rounds ▸ after⟩
      obtain ⟨fuel, rfl⟩ := Nat.exists_eq_succ_of_ne_zero (Nat.ne_of_gt enough)
      rw [mapLoop, if_pos ((after.ends_iff (Nat.le_of_eq all)).mpr all)]
  | succ left ih =>
      have more : n < numBootEntries := by omega
      have goes : n < bootRounds ecx := by omega
      have next := after.round more
      have step : ∀ fuel, mapLoop (fuel + 1) c =
          if c.round.ecx ≠ 0 then mapLoop fuel c.round else some c.round := fun fuel => by
        rw [mapLoop, if_neg fun ends => Nat.ne_of_lt more ((after.ends_iff more.le).mp ends)]
      by_cases last : n + 1 = ecx.toNat
      · -- `%ecx` has reached zero
        have zero := (next.loop_iff more).mpr last
        have rounds : bootRounds ecx = n + 1 := by
          have nonzero : ecx ≠ 0 := by
            rintro rfl
            cases last
          rw [bootRounds, if_neg nonzero, ← last]
          exact Nat.min_eq_right more
        refine ⟨c.round, fun fuel enough => ?_, rounds ▸ next⟩
        obtain ⟨fuel, rfl⟩ :=
          Nat.exists_eq_succ_of_ne_zero (Nat.ne_of_gt (Nat.zero_lt_of_lt enough))
        rw [step, if_neg (not_not.mpr zero)]
      · have nonzero : c.round.ecx ≠ 0 := fun zero => last ((next.loop_iff more).mp zero)
        have going' : n + 1 = bootRounds ecx → n + 1 = numBootEntries := by
          unfold bootRounds
          split <;> omega
        obtain ⟨c', runs, ended⟩ := ih next (by omega) goes going'
        refine ⟨c', fun fuel enough => ?_, ended⟩
        obtain ⟨fuel, rfl⟩ :=
          Nat.exists_eq_succ_of_ne_zero (Nat.ne_of_gt (Nat.zero_lt_of_lt enough))
        rw [step, if_pos nonzero]
        exact runs fuel (Nat.lt_of_succ_lt_succ enough)

/-- The loop ends, for every value of `%ecx`. -/
theorem mapLoop_eq (t ecx edx : Word) (m : Memory) :
    ∃ c, (∀ fuel > numBootEntries, mapLoop fuel (bootStart t ecx edx m) = some c) ∧
      AfterRounds (virtualToPhysical t) ecx m (bootRounds ecx) c := by
  refine mapLoop_from numBootEntries afterRounds_zero (Nat.zero_add _) (Nat.zero_le _)
    fun none => ?_
  unfold bootRounds at none
  split at none
  · exact none
  · rename_i nonzero
    have positive : 0 < ecx.toNat :=
      Nat.pos_of_ne_zero fun zero => nonzero (BitVec.eq_of_toNat_eq zero)
    unfold numBootEntries at none
    omega

/-! ## 3. The tables -/

/-- The eight tables at `t` hold the numbers of the first pages, and nothing else was written. -/
structure BootFilled (t : Word) (m m' : Memory) : Prop where
  entries : ∀ i < numBootEntries, m'.read32 (cell t i) = bootEntry i
  beyond : ∀ x, ¬ InRange t (4 * numBootEntries) x → m' x = m x

/-- `%ecx` leaves the loop to the comparison. -/
def CountsPast (ecx : Word) : Prop := ecx = 0 ∨ numBootEntries ≤ ecx.toNat

theorem bootRounds_eq_iff : bootRounds ecx = numBootEntries ↔ CountsPast ecx := by
  unfold bootRounds CountsPast
  split
  · rename_i zero
    exact iff_of_true rfl (.inl zero)
  · rename_i nonzero
    rw [min_eq_left_iff, or_iff_right nonzero]

/-- The loop always ends. It leaves the tables filled exactly if `%ecx` was zero or
at least the number of entries, or if the entries from `%ecx` on were in the
memory before. -/
theorem bootTables_iff (bootTable1 ecx edx : Word) (m : Memory) :
    ∃ c, (∀ fuel > numBootEntries, mapLoop fuel (bootStart bootTable1 ecx edx m) = some c) ∧
      (BootFilled (virtualToPhysical bootTable1) m c.mem ↔
        CountsPast ecx ∨ ∀ i, ecx.toNat ≤ i → i < numBootEntries →
          m.read32 (cell (virtualToPhysical bootTable1) i) = bootEntry i) := by
  obtain ⟨c, runs, after⟩ := mapLoop_eq bootTable1 ecx edx m
  refine ⟨c, runs, ?_, ?_⟩
  · intro filled
    by_cases past : CountsPast ecx
    · exact .inl past
    · obtain ⟨nonzero, short⟩ := not_or.mp past
      have rounds : bootRounds ecx = ecx.toNat := by
        rw [bootRounds, if_neg nonzero]
        exact Nat.min_eq_right (Nat.le_of_not_le short)
      refine .inr fun i left hi => ?_
      rw [← after.rest i hi (rounds ▸ left)]
      exact filled.entries i hi
  · rintro (past | before)
    · have all := bootRounds_eq_iff.mpr past
      exact ⟨fun i hi => after.entries i (all ▸ hi), after.beyond⟩
    · refine ⟨fun i hi => ?_, after.beyond⟩
      rcases Nat.lt_or_ge i (bootRounds ecx) with done | left
      · exact after.entries i done
      · have short : ecx.toNat ≤ i := by
          unfold bootRounds at left
          split at left <;> omega
        rw [after.rest i hi left]
        exact before i short hi

/-- With 1 in `%ecx`, only the first page is mapped. -/
theorem bootTables_one : ¬ ∀ (bootTable1 ecx edx : Word) (m : Memory),
    ∃ c, (∀ fuel > numBootEntries, mapLoop fuel (bootStart bootTable1 ecx edx m) = some c) ∧
      BootFilled (virtualToPhysical bootTable1) m c.mem := by
  intro claim
  obtain ⟨c, runs, filled⟩ := claim 0xC0101000 1 0 fun _ => 0
  have ended := runs (numBootEntries + 1) (Nat.lt_succ_self _)
  cases ended
  exact absurd (filled.entries 1 (by decide)) (by decide)

/-! ## 4. The directory -/

theorem bootEntry_eq (i : Nat) : bootEntry i = BitVec.ofNat 32 (4096 * i) + 3 := by
  have clear : BitVec.ofNat 32 (4096 * i) &&& 3 = 0 := by
    refine BitVec.eq_of_toNat_eq ?_
    rw [BitVec.toNat_and, BitVec.toNat_ofNat]
    refine (Nat.and_two_pow_sub_one_eq_mod _ 2).trans ?_
    show _ = 0
    omega
  exact (BitVec.add_eq_or_of_and_eq_zero _ _ clear).symm

namespace KernelLayout

variable {l : KernelLayout}

theorem storeTables_spec (l : KernelLayout) {first : Nat} (room : first + numBootTables ≤ 1024)
    (m : Memory) : m.OnlyPage l.cr3 (l.storeTables first m) ∧
      ∀ i < numBootTables,
        (l.storeTables first m).read32 (cell l.cr3 (first + i)) = l.bootTable i + 3 := by
  refine Fallible.foldl_range (I := fun n (m' : Memory) => m.OnlyPage l.cr3 m' ∧
    ∀ i < n, m'.read32 (cell l.cr3 (first + i)) = l.bootTable i + 3)
    ⟨.refl m _, fun i hi => absurd hi (Nat.not_lt_zero i)⟩ ?_
  rintro n hn m' ⟨only, entries⟩
  have small : first + n < 1024 := by omega
  refine ⟨only.write l.aligned_cr3 small _, fun i hi => ?_⟩
  cases Nat.lt_or_eq_of_le (Nat.le_of_lt_succ hi) with
  | inl earlier =>
      rw [read32_write32_of_apart]
      · exact entries i earlier
      · exact cell_apart l.aligned_cr3 l.aligned_cr3 small (by omega) (.inr (by omega))
  | inr same =>
      rw [same, read32_write32_same]

theorem cell_bootTable (l : KernelLayout) (i j : Nat) :
    cell (l.bootTable i) j = cell (virtualToPhysical l.bootTable1) (1024 * i + j) := by
  unfold bootTable tableAt virtualToPhysical cell
  bv_omega

/-- With the tables filled, the directory is the one on which `paging_init` starts. -/
theorem bootMapped_start {m m' : Memory}
    (filled : BootFilled (virtualToPhysical l.bootTable1) m m') :
    l.BootMapped (l.storeDirectory m') := by
  obtain ⟨low, -⟩ := l.storeTables_spec (show 0 + numBootTables ≤ 1024 by decide) m'
  obtain ⟨high, entries⟩ := l.storeTables_spec (show kernelEntry + numBootTables ≤ 1024 by decide)
    (l.storeTables 0 m')
  intro i hi
  refine ⟨entries i hi ▸ leadsTo_entry (l.aligned_bootTable i), fun j hj => ?_⟩
  have apart := (cr3_ne_bootTable (l := l) hi).symm
  have inside : 1024 * i + j < numBootEntries := by
    unfold numBootTables at hi
    unfold numBootEntries
    omega
  have page : 4096 * (1024 * i + j) = i * 2 ^ 22 + 4096 * j := by omega
  have aligned := l.aligned_bootTable i
  rw [storeDirectory, high _ j aligned apart hj, low _ j aligned apart hj, cell_bootTable,
    filled.entries _ inside, bootEntry_eq, page, BitVec.ofNat_add]
  exact leadsTo_entry (aligned_page i j)

end KernelLayout

end Bodos
