import Mathlib.Data.Bool.Basic
import Bodos.Lib.Descriptors

/-!
# The descriptor tables

`idt.c`, `gdt.c` and `irq_install`, over the bytes of the memory, against the way
in which the processor reads the tables.

Results:
1. `gate_create_idt_entry`, `segment_gdt_set_gate`: what has been stored is read.
2. `boot_gates`: after the kernel has set up its tables, each line has the gate of
   its routine, vector `0x80` has one, and no other vector has any.
3. `boot_segments`: the segments of these gates and of the routines are there,
   and they are flat.
-/

namespace Bodos

open Mem32 Descriptors

/-! ## 1. The code -/

structure IdtEntry where
  low_addr : BitVec 16
  selector : BitVec 16
  zero : Byte
  type_attr : Byte
  high_addr : BitVec 16
deriving DecidableEq, Repr

/-- The packed structure, stored at an address. -/
def IdtEntry.store (m : Memory) (a : Word) (e : IdtEntry) : Memory :=
  ((((m.write16 a e.low_addr).write16 (a + 2) e.selector).write8 (a + 4) e.zero).write8 (a + 5)
    e.type_attr).write16 (a + 6) e.high_addr

/-- `create_idt_entry`, for the table at the address `idt`. -/
def create_idt_entry (idt : Word) (m : Memory) (index : Nat) (handler : Word)
    (selector : BitVec 16) (type_attr : Byte) : Memory :=
  IdtEntry.store m (entry idt index)
    { low_addr := (handler &&& 0x0000ffff).setWidth 16
      selector := selector
      zero := 0
      type_attr := type_attr
      high_addr := (handler >>> 16).setWidth 16 }

/-- `idt_install`: the table has 256 entries. -/
def idt_install (idt : Word) (m : Memory) : Memory × Register :=
  (m.fill idt 0 (256 * 8), { base := idt, limit := BitVec.ofNat 16 (256 * 8 - 1) })

def setup_idt (idt interrupt_handler_0 : Word) (m : Memory) : Memory × Register :=
  let (m, idtptr) := idt_install idt m
  (create_idt_entry idt m 0x80 interrupt_handler_0 0x0008 0x8E, idtptr)

/-- The entries of `irq_install`, for the addresses of `irq_routine_0` to `irq_routine_15`. -/
def irq_entries (irq_routine : Nat → Word) : List (Nat × Word) :=
  [(32, irq_routine 0), (33, irq_routine 1), (34, irq_routine 2), (35, irq_routine 3),
    (36, irq_routine 4), (37, irq_routine 5), (38, irq_routine 6), (39, irq_routine 7),
    (40, irq_routine 8), (41, irq_routine 9), (42, irq_routine 10), (43, irq_routine 11),
    (44, irq_routine 12), (45, irq_routine 13), (46, irq_routine 14), (47, irq_routine 15)]

/-- `irq_install` after `irq_remap`. -/
def irq_install (idt : Word) (irq_routine : Nat → Word) (m : Memory) : Memory :=
  (irq_entries irq_routine).foldl (fun m e => create_idt_entry idt m e.1 e.2 0x08 0x8E) m

/-- `gdt_set_gate`, for the table at the address `gdt`. -/
def gdt_set_gate (gdt : Word) (m : Memory) (num : Nat) (base limit : Word) (access gran : Byte) :
    Memory :=
  let a := entry gdt num
  let m := m.write16 (a + 2) ((base &&& 0xFFFF).setWidth 16)
  let m := m.write8 (a + 4) ((base >>> 16 &&& 0xFF).setWidth 8)
  let m := m.write8 (a + 7) ((base >>> 24 &&& 0xFF).setWidth 8)
  let m := m.write16 a ((limit &&& 0xFFFF).setWidth 16)
  let m := m.write8 (a + 6) ((limit >>> 16 &&& 0x0F).setWidth 8)
  let m := m.write8 (a + 6) (m (a + 6) ||| gran &&& 0xF0)
  m.write8 (a + 5) access

def gdt_install (gdt : Word) (m : Memory) : Memory × Register :=
  let m := gdt_set_gate gdt m 0 0 0 0 0
  let m := gdt_set_gate gdt m 1 0 0xFFFFFFFF 0x9A 0xCF
  let m := gdt_set_gate gdt m 2 0 0xFFFFFFFF 0x92 0xCF
  (m, { base := gdt, limit := BitVec.ofNat 16 (8 * 3 - 1) })

/-! ## 2. One entry -/

variable {m : Memory} {a x : Word}

theorem store_frame (e : IdtEntry) (outside : ¬ InRange a 8 x) : e.store m a x = m x := by
  have byte : ∀ k : Word, k.toNat < 8 → x ≠ a + k := by
    rintro k hk rfl
    exact outside (byte_inRange a k hk)
  have first : x ≠ a := by
    rintro rfl
    exact outside (by simp [InRange])
  have hadd (i j : Word) : a + i + j = a + (i + j) := BitVec.add_assoc a i j
  simp [IdtEntry.store, Memory.write16, Memory.write8, hadd, first, byte]

/-- The processor reads the gate that has been stored. -/
theorem read_store (e : IdtEntry) : Gate.read (e.store m a) a =
    ⟨e.high_addr ++ e.low_addr, e.selector, e.type_attr⟩ := by
  have hadd (i j : Word) : a + i + j = a + (i + j) := BitVec.add_assoc a i j
  have word (h l : BitVec 16) : h.extractLsb' 8 8 ++ h.extractLsb' 0 8 ++ l.extractLsb' 8 8 ++
      l.extractLsb' 0 8 = h ++ l := by
    refine BitVec.eq_of_getLsbD_eq fun i hi => ?_
    simp only [BitVec.getLsbD_append, BitVec.getLsbD_extractLsb']
    grind
  have half (h : BitVec 16) : h.extractLsb' 8 8 ++ h.extractLsb' 0 8 = h := by
    refine BitVec.eq_of_getLsbD_eq fun i hi => ?_
    simp only [BitVec.getLsbD_append, BitVec.getLsbD_extractLsb']
    grind
  ext1
  · simp [Gate.read, IdtEntry.store, Memory.write16, Memory.write8, hadd, word]
  · simp [Gate.read, IdtEntry.store, Memory.write16, Memory.write8, hadd, half]
  · simp [Gate.read, IdtEntry.store, Memory.write16, Memory.write8, hadd]

theorem gate_create_idt_entry (idt : Word) (m : Memory) (index : Nat) (handler : Word)
    (selector : BitVec 16) (type_attr : Byte) :
    Gate.read (create_idt_entry idt m index handler selector type_attr) (entry idt index) =
      ⟨handler, selector, type_attr⟩ := by
  have offset : (handler >>> 16).setWidth 16 ++ (handler &&& 0x0000ffff).setWidth 16 = handler := by
    have low : ∀ i < 16, (0x0000ffff : Word).getLsbD i = true := by decide
    refine BitVec.eq_of_getLsbD_eq fun i hi => ?_
    simp only [BitVec.getLsbD_append, BitVec.getLsbD_setWidth, BitVec.getLsbD_ushiftRight,
      BitVec.getLsbD_and]
    grind
  rw [create_idt_entry, read_store, offset]

/-- The other entries stay as they were. -/
theorem gate_other (idt : Word) (m : Memory) {index v : Nat} (handler : Word)
    (selector : BitVec 16) (type_attr : Byte) (hi : index < 256) (hv : v < 256)
    (other : index ≠ v) :
    Gate.read (create_idt_entry idt m index handler selector type_attr) (entry idt v) =
      Gate.read m (entry idt v) := by
  have apart := entry_apart idt (by omega : index < 8192) (by omega : v < 8192) other
  exact Gate.read_congr fun x hx => store_frame _ (not_inRange_of_apart apart hx)

/-- Of the limit the low 20 bits are stored, and of `gran` the high four. -/
theorem segment_gdt_set_gate (gdt : Word) (m : Memory) (num : Nat) (base limit : Word)
    (access gran : Byte) :
    Segment.read (gdt_set_gate gdt m num base limit access gran) (entry gdt num) =
      ⟨base, limit.setWidth 20, access, gran.extractLsb' 4 4⟩ := by
  have hadd (i j : Word) : entry gdt num + i + j = entry gdt num + (i + j) := BitVec.add_assoc _ i j
  have byte : ∀ i < 8, (255#8).getLsbD i = true := by decide
  have half : ∀ i < 16, (65535#16).getLsbD i = true := by decide
  have low : ∀ i < 8, (15#8).getLsbD i = decide (i < 4) := by decide
  have high : ∀ i < 8, (240#8).getLsbD i = decide (4 ≤ i) := by decide
  have base_eq : (BitVec.setWidth 8 (base >>> 24) &&& 255#8) ++
      (BitVec.setWidth 8 (base >>> 16) &&& 255#8) ++
      BitVec.extractLsb' 8 8 (BitVec.setWidth 16 base &&& 65535#16) ++
      BitVec.extractLsb' 0 8 (BitVec.setWidth 16 base &&& 65535#16) = base := by
    refine BitVec.eq_of_getLsbD_eq fun i hi => ?_
    simp only [BitVec.getLsbD_append, BitVec.getLsbD_extractLsb', BitVec.getLsbD_and,
      BitVec.getLsbD_setWidth, BitVec.getLsbD_ushiftRight]
    grind
  have limit_eq : BitVec.extractLsb' 0 4 (BitVec.setWidth 8 (limit >>> 16) &&& 15#8 |||
      gran &&& 240#8) ++ BitVec.extractLsb' 8 8 (BitVec.setWidth 16 limit &&& 65535#16) ++
      BitVec.extractLsb' 0 8 (BitVec.setWidth 16 limit &&& 65535#16) =
        BitVec.setWidth 20 limit := by
    refine BitVec.eq_of_getLsbD_eq fun i hi => ?_
    simp only [BitVec.getLsbD_append, BitVec.getLsbD_extractLsb', BitVec.getLsbD_and,
      BitVec.getLsbD_or, BitVec.getLsbD_setWidth, BitVec.getLsbD_ushiftRight]
    grind
  have flags_eq : BitVec.extractLsb' 4 4 (BitVec.setWidth 8 (limit >>> 16) &&& 15#8 |||
      gran &&& 240#8) = BitVec.extractLsb' 4 4 gran := by
    refine BitVec.eq_of_getLsbD_eq fun i hi => ?_
    simp only [BitVec.getLsbD_extractLsb', BitVec.getLsbD_and, BitVec.getLsbD_or,
      BitVec.getLsbD_setWidth, BitVec.getLsbD_ushiftRight]
    grind
  ext1
  · simp [Segment.read, gdt_set_gate, Memory.write16, Memory.write8, hadd, base_eq]
  · simp [Segment.read, gdt_set_gate, Memory.write16, Memory.write8, hadd, limit_eq]
  · simp [Segment.read, gdt_set_gate, Memory.write16, Memory.write8, hadd]
  · simp [Segment.read, gdt_set_gate, Memory.write16, Memory.write8, hadd, flags_eq]

theorem gdt_set_gate_frame (gdt : Word) (m : Memory) (num : Nat) (base limit : Word)
    (access gran : Byte) (outside : ¬ InRange (entry gdt num) 8 x) :
    gdt_set_gate gdt m num base limit access gran x = m x := by
  have byte : ∀ k : Word, k.toNat < 8 → x ≠ entry gdt num + k := by
    rintro k hk rfl
    exact outside (byte_inRange _ k hk)
  have first : x ≠ entry gdt num := by
    rintro rfl
    exact outside (by simp [InRange])
  have hadd (i j : Word) : entry gdt num + i + j = entry gdt num + (i + j) := BitVec.add_assoc _ i j
  simp [gdt_set_gate, Memory.write16, Memory.write8, hadd, first, byte]

/-! ## 3. The tables after the start -/

/-- The tables as `arch_specific_init` leaves them, and the two table registers. -/
def boot_tables (gdt idt interrupt_handler_0 : Word) (irq_routine : Nat → Word) (m : Memory) :
    Memory × Register × Register :=
  let (m, gp) := gdt_install gdt m
  let (m, idtptr) := setup_idt idt interrupt_handler_0 m
  (irq_install idt irq_routine m, gp, idtptr)

theorem gate_fill (idt : Word) (m : Memory) {v : Nat} (hv : v < 256) :
    Gate.read (m.fill idt 0 (256 * 8)) (entry idt v) = ⟨0, 0, 0⟩ := by
  have zero : ∀ k : Word, k.toNat < 8 → m.fill idt 0 (256 * 8) (entry idt v + k) = 0 := by
    intro k hk
    refine Memory.fill_inside ?_
    unfold InRange entry
    bv_omega
  have first : m.fill idt 0 (256 * 8) (entry idt v) = 0 := by
    refine Memory.fill_inside ?_
    unfold InRange entry
    bv_omega
  rw [Gate.read, first, zero 1 (by decide), zero 2 (by decide), zero 3 (by decide),
    zero 5 (by decide), zero 6 (by decide), zero 7 (by decide)]
  rfl

theorem irq_entries_eq (irq_routine : Nat → Word) :
    irq_entries irq_routine = (List.range 16).map fun n => (32 + n, irq_routine n) := rfl

/-- Entries with different indices do not disturb each other. -/
theorem gate_entries (idt : Word) {es : List (Nat × Word)} (inside : ∀ e ∈ es, e.1 < 256)
    (nodup : (es.map Prod.fst).Nodup) {v : Nat} (hv : v < 256) (m : Memory) :
    (∀ h, (v, h) ∈ es → Gate.read (es.foldl (fun m e => create_idt_entry idt m e.1 e.2 8 0x8E) m)
        (entry idt v) = ⟨h, 8, 0x8E⟩) ∧
      (v ∉ es.map Prod.fst →
        Gate.read (es.foldl (fun m e => create_idt_entry idt m e.1 e.2 8 0x8E) m) (entry idt v) =
          Gate.read m (entry idt v)) := by
  induction es generalizing m with
  | nil => exact ⟨fun _ member => absurd member List.not_mem_nil, fun _ => rfl⟩
  | cons e es ih =>
      obtain ⟨first, later⟩ := List.forall_mem_cons.mp inside
      rw [List.map_cons, List.nodup_cons] at nodup
      obtain ⟨found, kept⟩ := ih later nodup.2 (create_idt_entry idt m e.1 e.2 8 0x8E)
      refine ⟨fun h member => ?_, fun none => ?_⟩
      · rcases List.mem_cons.mp member with rfl | later
        · exact (kept nodup.1).trans (gate_create_idt_entry idt m v h 8 0x8E)
        · exact found h later
      · rw [List.map_cons, List.mem_cons, not_or] at none
        exact (kept none.2).trans (gate_other idt m e.2 8 0x8E first hv (Ne.symm none.1))

theorem irq_entries_indices (irq_routine : Nat → Word) :
    (irq_entries irq_routine).map Prod.fst = (List.range 16).map (32 + ·) := rfl

theorem mem_indices {v : Nat} : v ∈ (List.range 16).map (32 + ·) ↔ 32 ≤ v ∧ v < 48 := by
  rw [List.mem_map]
  constructor
  · rintro ⟨n, member, rfl⟩
    have := List.mem_range.mp member
    omega
  · rintro ⟨low, high⟩
    exact ⟨v - 32, List.mem_range.mpr (by omega), by omega⟩

theorem irq_entries_inside (irq_routine : Nat → Word) :
    ∀ e ∈ irq_entries irq_routine, e.1 < 256 := by
  intro e member
  have index : e.1 ∈ (irq_entries irq_routine).map Prod.fst := List.mem_map_of_mem member
  rw [irq_entries_indices] at index
  exact Nat.lt_trans (mem_indices.mp index).2 (by decide)

theorem gate_irq_install (idt : Word) (irq_routine : Nat → Word) (m : Memory) {v : Nat}
    (hv : v < 256) : Gate.read (irq_install idt irq_routine m) (entry idt v) =
      if 32 ≤ v ∧ v < 48 then ⟨irq_routine (v - 32), 8, 0x8E⟩ else Gate.read m (entry idt v) := by
  have inside := irq_entries_inside irq_routine
  have nodup : ((irq_entries irq_routine).map Prod.fst).Nodup := by
    rw [irq_entries_indices]
    decide
  obtain ⟨found, kept⟩ := gate_entries idt inside nodup hv m
  split
  · next line =>
    refine found _ ?_
    rw [irq_entries_eq, List.mem_map]
    exact ⟨v - 32, List.mem_range.mpr (by omega), by rw [Nat.add_sub_cancel' line.1]⟩
  · next other => exact kept fun member => other (mem_indices.mp member)

theorem gate_setup_idt (idt interrupt_handler_0 : Word) (m : Memory) {v : Nat} (hv : v < 256) :
    Gate.read (setup_idt idt interrupt_handler_0 m).1 (entry idt v) =
      if v = 0x80 then ⟨interrupt_handler_0, 8, 0x8E⟩ else ⟨0, 0, 0⟩ := by
  split
  · next same =>
    subst same
    exact gate_create_idt_entry idt _ 0x80 _ _ _
  · next other =>
    exact (gate_other idt _ _ _ _ (by decide) hv (Ne.symm other)).trans (gate_fill idt m hv)

/-- After the start, the vectors of the lines lead to their routines, `0x80` to
`interrupt_handler_0`, and no other vector has a gate. -/
theorem boot_gates (gdt idt interrupt_handler_0 : Word) (irq_routine : Nat → Word) (m : Memory)
    (v : Nat) :
    (boot_tables gdt idt interrupt_handler_0 irq_routine m).2.2.gate
        (boot_tables gdt idt interrupt_handler_0 irq_routine m).1 v =
      if 32 ≤ v ∧ v < 48 then some ⟨irq_routine (v - 32), 8, 0x8E⟩
      else if v = 0x80 then some ⟨interrupt_handler_0, 8, 0x8E⟩
      else none := by
  have limit : (boot_tables gdt idt interrupt_handler_0 irq_routine m).2.2.Holds v ↔ v < 256 := by
    have bytes : (BitVec.ofNat 16 (256 * 8 - 1)).toNat = 2047 := by decide
    show 8 * v + 7 ≤ (BitVec.ofNat 16 (256 * 8 - 1)).toNat ↔ v < 256
    omega
  rcases Nat.lt_or_ge v 256 with hv | hv
  · have read := gate_irq_install idt irq_routine
      (setup_idt idt interrupt_handler_0 (gdt_install gdt m).1).1 hv
    rw [gate_setup_idt idt interrupt_handler_0 _ hv] at read
    have present : ∀ g : Gate, g.attr = 0x8E →
        (if g.attr.msb = true then some g else none) = some g := by
      intro g attr
      rw [attr]
      rfl
    refine (Register.gate_eq (limit.mpr hv) read).trans ?_
    split
    · exact present _ rfl
    · split
      · exact present _ rfl
      · rfl
  · have outside : ¬ (boot_tables gdt idt interrupt_handler_0 irq_routine m).2.2.Holds v :=
      fun holds => absurd (limit.mp holds) (Nat.not_lt.mpr hv)
    have notLine : ¬ (32 ≤ v ∧ v < 48) := by omega
    have other : v ≠ 0x80 := by omega
    rw [Register.gate, if_neg outside, if_neg notLine, if_neg other]

/-- An entry of the IDT is stored inside it. -/
theorem create_idt_entry_frame (idt : Word) (m : Memory) {index : Nat} (handler : Word)
    (selector : BitVec 16) (type_attr : Byte) (hi : index < 256) {x : Word}
    (outside : ¬ InRange idt 2048 x) :
    create_idt_entry idt m index handler selector type_attr x = m x := by
  refine store_frame _ fun inside => outside ?_
  unfold InRange entry at *
  bv_omega

theorem irq_install_frame (idt : Word) (irq_routine : Nat → Word) (m : Memory) {x : Word}
    (outside : ¬ InRange idt 2048 x) : irq_install idt irq_routine m x = m x := by
  have general : ∀ (es : List (Nat × Word)) (m : Memory), (∀ e ∈ es, e.1 < 256) →
      es.foldl (fun m e => create_idt_entry idt m e.1 e.2 8 0x8E) m x = m x := by
    intro es
    induction es with
    | nil => exact fun _ _ => rfl
    | cons e es ih =>
        intro m inside
        obtain ⟨first, later⟩ := List.forall_mem_cons.mp inside
        exact (ih _ later).trans (create_idt_entry_frame idt m e.2 8 0x8E first outside)
  exact general _ m (irq_entries_inside irq_routine)

theorem setup_idt_frame (idt interrupt_handler_0 : Word) (m : Memory) {x : Word}
    (outside : ¬ InRange idt 2048 x) : (setup_idt idt interrupt_handler_0 m).1 x = m x :=
  (create_idt_entry_frame idt _ _ _ _ (by decide) outside).trans
    (Memory.fill_frame (by decide) outside)

/-- The flat segment with an access byte. -/
def flat (access : Byte) : Segment := ⟨0, 0xFFFFF, access, 0xC⟩

theorem flat_size (access : Byte) : (flat access).size = 2 ^ 32 := by
  simp [Segment.size, flat]

theorem segment_gdt_install (gdt : Word) (m : Memory) :
    Segment.read (gdt_install gdt m).1 (entry gdt 1) = flat 0x9A ∧
      Segment.read (gdt_install gdt m).1 (entry gdt 2) = flat 0x92 := by
  have apart := entry_apart gdt (by decide : 2 < 8192) (by decide : 1 < 8192) (by decide)
  constructor
  · have stored := segment_gdt_set_gate gdt (gdt_set_gate gdt m 0 0 0 0 0) 1 0 0xFFFFFFFF 0x9A 0xCF
    refine Eq.trans (Segment.read_congr fun x hx => ?_) stored
    exact gdt_set_gate_frame gdt _ 2 _ _ _ _ (not_inRange_of_apart apart hx)
  · exact segment_gdt_set_gate gdt _ 2 0 0xFFFFFFFF 0x92 0xCF

/-- The gates stand in a code segment of ring 0 and the routines load a data segment,
which both cover all addresses. The selectors of no other segment are usable. -/
theorem boot_segments (gdt idt interrupt_handler_0 : Word) (irq_routine : Nat → Word) (m : Memory)
    (apart : Apart idt 2048 gdt 24) :
    let t := boot_tables gdt idt interrupt_handler_0 irq_routine m
    (∀ v g, t.2.2.gate t.1 v = some g → ∃ s, t.2.1.segment t.1 g.selector = some s ∧ s.IsCode ∧
      s.base = 0 ∧ s.size = 2 ^ 32) ∧
    (∃ s, t.2.1.segment t.1 0x10 = some s ∧ s.IsData ∧ s.base = 0 ∧ s.size = 2 ^ 32) ∧
    ∀ selector : BitVec 16, selector.toNat / 8 ≠ 1 → selector.toNat / 8 ≠ 2 →
      t.2.1.segment t.1 selector = none := by
  intro t
  have kept : ∀ i < 3, Segment.read t.1 (entry gdt i) =
      Segment.read (gdt_install gdt m).1 (entry gdt i) := by
    intro i hi
    refine Segment.read_congr fun x hx => ?_
    have outside : ¬ InRange idt 2048 x := by
      refine not_inRange_of_apart apart ?_
      unfold InRange entry at *
      bv_omega
    exact (irq_install_frame idt irq_routine _ outside).trans (setup_idt_frame idt _ _ outside)
  have holds : ∀ i, t.2.1.Holds i ↔ i < 3 := by
    intro i
    have bytes : (BitVec.ofNat 16 (8 * 3 - 1)).toNat = 23 := by decide
    show 8 * i + 7 ≤ (BitVec.ofNat 16 (8 * 3 - 1)).toNat ↔ i < 3
    omega
  obtain ⟨code, data⟩ := segment_gdt_install gdt m
  have present (access : Byte) (msb : access.msb = true) :
      (if (flat access).access.msb = true then some (flat access) else none) =
        some (flat access) := if_pos msb
  refine ⟨fun v g gate => ?_, ?_, fun selector notCode notData => ?_⟩
  · have selector : g.selector = 8 := by
      rw [boot_gates] at gate
      split at gate
      · exact (congrArg Gate.selector (Option.some.inj gate)).symm
      · split at gate
        · exact (congrArg Gate.selector (Option.some.inj gate)).symm
        · cases gate
    refine ⟨flat 0x9A, ?_, by decide, rfl, flat_size _⟩
    have found := Register.segment_eq (r := t.2.1) (i := 1) (congrArg (·.toNat / 8) selector)
      (by decide) ((holds 1).mpr (by decide)) ((kept 1 (by decide)).trans code)
    exact found.trans (present 0x9A (by decide))
  · refine ⟨flat 0x92, ?_, by decide, rfl, flat_size _⟩
    have index : (0x10 : BitVec 16).toNat / 8 = 2 := by decide
    have found := Register.segment_eq (r := t.2.1) index (by decide) ((holds 2).mpr (by decide))
      ((kept 2 (by decide)).trans data)
    exact found.trans (present 0x92 (by decide))
  · rw [Register.segment, if_neg]
    rintro ⟨nonzero, inside⟩
    have := (holds _).mp inside
    omega

theorem boot_segments_apart :
    let t := boot_tables 0x2000 0x1000 0x100000 (fun _ => 0) (fun _ => 0xFF)
    ∃ s, t.2.1.segment t.1 0x10 = some s ∧ s.IsData ∧ s.base = 0 ∧ s.size = 2 ^ 32 :=
  (boot_segments 0x2000 0x1000 0x100000 (fun _ => 0) (fun _ => 0xFF) (by decide)).2.1

end Bodos
