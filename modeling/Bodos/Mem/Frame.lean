import Bodos.Mem.FreeOrder

/-!
# What the allocator leaves alone

Headers stand between the payloads in the same memory. `allocate` puts a new header
into the chunk that it takes, `free` writes to headers that exist.

Results:
1. `HeaderByte.inside`, `not_headerByte`: no header of a chain overlaps a payload.
2. `user_data_kept`: the allocator changes no byte outside the block, and none of a
   payload that is live.
-/

namespace Bodos

open Fallible FreeList Mem32

section Headers

variable {a o : Nat} {l : List Seg} {t : Seg} {x : Word}

theorem HeaderByte.inside (h : HeaderByte a l x) (bound : a + span 16 l ≤ 2 ^ 32) :
    a ≤ x.toNat ∧ x.toNat < a + span 16 l := by
  obtain ⟨o, s, at_o, here⟩ := h
  have le := at_o.le_span
  have start : (addr (a + o)).toNat = a + o := addr_toNat (by omega)
  rw [inRange_iff (by omega), start] at here
  omega

theorem not_headerByte (bound : a + span 16 l ≤ 2 ^ 32) (at_o : At 16 l o t)
    (low : a + o + 16 ≤ x.toNat) (high : x.toNat < a + o + 16 + t.size) : ¬ HeaderByte a l x := by
  intro inHeader
  obtain ⟨p, s, at_p, here⟩ := inHeader
  have le := at_p.le_span
  have start : (addr (a + p)).toNat = a + p := addr_toNat (by omega)
  rw [inRange_iff (by omega), start] at here
  rcases Nat.lt_trichotomy o p with before | rfl | after
  · have apart := at_o.lt at_p before
    omega
  · omega
  · have apart := at_p.lt at_o after
    omega

end Headers

namespace Block

/-- The byte lies outside the block, or in the payload of a chunk that is taken. -/
def UserByte (b : Block) (m : Memory) (x : Word) : Prop :=
  (x.toNat < b.start.toNat ∨ b.start.toNat + b.blockSize.toNat ≤ x.toNat) ∨
    ∃ o t, At 16 (b.layout m) o t ∧ t.taken = true ∧
      b.start.toNat + o + 16 ≤ x.toNat ∧ x.toNat < b.start.toNat + o + 16 + t.size

/-- No header covers a byte of the user, as long as the taken segments stay. -/
theorem UserByte.not_header {b : Block} {m : Memory} {x : Word} {l : List Seg}
    (user : b.UserByte m x) (bound : b.start.toNat + b.blockSize.toNat ≤ 2 ^ 32)
    (tiles : span 16 l = b.blockSize.toNat)
    (stays : ∀ o t, At 16 (b.layout m) o t → t.taken = true → At 16 l o t) :
    ¬ HeaderByte b.start.toNat l x := by
  rw [← tiles] at bound
  rcases user with outside | ⟨o, t, at_o, taken, low, high⟩
  · intro inHeader
    obtain ⟨low, high⟩ := inHeader.inside bound
    omega
  · exact not_headerByte bound (stays o t at_o taken) low high

namespace WellFormed

variable {b : Block} {m : Memory}

theorem allocate_frame (h : b.WellFormed m) (n : Word) (fuel : Nat) :
    Meets ((b.layout m).length < fuel) (b.allocate m n fuel) fun r =>
      ∀ x, b.UserByte m x → r.2 x = m x := by
  refine (h.allocate_cases n fuel).mono fun r cases x user => ?_
  rcases cases with ⟨-, rfl⟩ | ⟨pre, s, post, split, noFit, fit, rfl⟩
  · rfl
  · have linked := h.linked
    have tiles := h.tiles
    have bound := h.bound
    have placed := h.placed
    rw [split] at linked tiles
    have found : alloc 16 8 n.toNat (pre ++ s :: post) =
        Option.some (span 16 pre, pre ++ (carve 16 8 n.toNat s ++ post)) :=
      alloc_of_split noFit fit
    have tiles' : span 16 (pre ++ (carve 16 8 n.toNat s ++ post)) = b.blockSize.toNat :=
      (span_alloc found).trans tiles
    have notHeader : ¬ HeaderByte b.start.toNat (pre ++ (carve 16 8 n.toNat s ++ post)) x :=
      user.not_header bound tiles' fun o t at_o taken =>
        ((split ▸ at_o).alloc (by decide) found taken).1
    rw [span_append] at tiles
    have only := granted_only (k := n.toNat) (Chain.append.mp linked).2 (by omega) (by omega)
    exact only.mono (fun o t at_o => ⟨t, at_append.mpr (.inr ⟨o, rfl, at_o⟩)⟩) x notHeader

theorem free_frame (h : b.WellFormed m) {p : Word} (live : b.Live m p) {x : Word}
    (user : b.UserByte m x) : Block.free m p x = m x := by
  obtain ⟨o, t, at_o, -, rfl⟩ := live
  obtain ⟨-, only⟩ := free_chain h.linked h.placed (h.tiles ▸ h.bound) h.merged at_o
  exact only x (user.not_header h.bound h.tiles fun _ _ at_p _ => at_p)

end WellFormed

end Block

/-- The value of a byte of the user after the call. -/
def HeapCall.store (x : Word) (old : Byte) : HeapCall → Byte
  | .write y v => if x = y then v else old
  | _ => old

namespace HeapState.Tracked

variable {s : HeapState} {x : Word}

/-- The allocator keeps what other code may write to. -/
theorem userByte (h : s.Tracked) (foreign : s.Foreign x) : s.block.UserByte s.mem x := by
  rcases foreign with outside | ⟨c, live, low, high⟩
  · exact .inl outside
  · obtain ⟨o, t, at_o, taken, start, large⟩ := h.owns c live
    exact .inr ⟨o, t, at_o, taken, by omega, by omega⟩

theorem not_header (h : s.Tracked) (foreign : s.Foreign x) :
    ¬ HeaderByte s.block.start.toNat (s.block.layout s.mem) x :=
  (h.userByte foreign).not_header h.heap.bound h.heap.tiles fun _ _ at_o _ => at_o

/-- A byte belongs to one live payload. -/
theorem once (h : s.Tracked) {c d : Payload} (hc : c ∈ s.live)
    (hd : d ∈ s.live) {x : Nat} (low : c.start.toNat ≤ x) (high : x < c.start.toNat + c.bytes.toNat)
    (low' : d.start.toNat ≤ x) (high' : x < d.start.toNat + d.bytes.toNat) : c = d := by
  obtain ⟨o, t, at_o, -, start, large⟩ := h.owns c hc
  obtain ⟨p, u, at_p, -, start', large'⟩ := h.owns d hd
  rcases Nat.lt_trichotomy o p with before | rfl | after
  · have apart := at_o.lt at_p before
    omega
  · exact List.inj_on_of_nodup_map h.nodup hc hd (BitVec.eq_of_toNat_eq (start.trans start'.symm))
  · have apart := at_p.lt at_o after
    omega

/-- A byte that is no header changes by a write only. -/
theorem byte_after (h : s.Tracked) {c : HeapCall} {t : HeapState} (step : Step s c t)
    (foreign : s.Foreign x) : t.mem x = c.store x (s.mem x) := by
  have user := h.userByte foreign
  cases step with
  | allocate hr => exact (h.heap.allocate_frame _ _).post _ hr x user
  | free live =>
      obtain ⟨o, t, at_o, taken, start, -⟩ := h.owns _ live
      refine h.heap.free_frame ⟨o, t, at_o, taken, ?_⟩ user
      rw [← start, addr_of_toNat]
  | write _ => rfl

/-- Other code does not change the chunks. -/
theorem layout_write (h : s.Tracked) (foreign : s.Foreign x) (v : Byte) :
    s.block.layout (s.mem.write8 x v) = s.block.layout s.mem := by
  have notHeader := h.not_header foreign
  refine (h.heap.write v fun o t at_o => ?_).2
  by_contra inside
  have bound := h.heap.bound
  have le := at_o.le_span
  rw [h.heap.tiles] at le
  refine notHeader ⟨o, t, at_o, ?_⟩
  have start : (addr (s.block.start.toNat + o)).toNat = s.block.start.toNat + o :=
    addr_toNat (by omega)
  rw [inRange_iff (by omega), start]
  omega

end HeapState.Tracked

/-- Every call leaves the bytes of the user as they are, those of a payload that is
freed too. -/
theorem user_data_kept (b : Block) (m : Memory) (h : b.WellFormed m) :
    (∀ n fuel, Meets ((b.layout m).length < fuel) (b.allocate m n fuel) fun r =>
      ∀ x, b.UserByte m x → r.2 x = m x) ∧
    ∀ p, b.Live m p → ∀ x, b.UserByte m x → Block.free m p x = m x :=
  ⟨h.allocate_frame, fun _ live _ user => h.free_frame live user⟩

/-- A block of 128 bytes with two payloads, the first of which is freed. -/
theorem user_data_kept_freed :
    ∃ s, heapSystem.Reachable HeapState.SparesLast s ∧
      s.block.layout s.mem = [⟨8, true⟩, ⟨24, true⟩, ⟨48, false⟩] ∧
      ∀ x : Word, 0x1028 ≤ x.toNat → x.toNat < 0x1040 → Block.free s.mem 0x1010 x = s.mem x := by
  obtain ⟨s, reached, start, layout⟩ := @heapSystem_of_any HeapState.SparesLast _ 0x1000 128
    (by decide) (by decide) (by decide) [.allocate 8 9, .allocate 24 9]
    (fun s => s.block.start = 0x1000 ∧
      s.block.layout s.mem = [⟨8, true⟩, ⟨24, true⟩, ⟨48, false⟩]) _ (by decide +kernel)
  refine ⟨s, reached, layout, fun x low high => ?_⟩
  have start' : s.block.start.toNat = 0x1000 := by rw [start]; rfl
  have at_first : At 16 (s.block.layout s.mem) 0 ⟨8, true⟩ := layout ▸ ⟨[], _, rfl, rfl⟩
  have at_second : At 16 (s.block.layout s.mem) 24 ⟨24, true⟩ :=
    layout ▸ ⟨[⟨8, true⟩], _, rfl, rfl⟩
  have user : s.block.UserByte s.mem x := by
    refine .inr ⟨24, _, at_second, rfl, ?_, ?_⟩
    · omega
    · simp only
      omega
  have live : s.block.Live s.mem 0x1010 := ⟨0, _, at_first, rfl, by rw [start']; decide⟩
  exact (user_data_kept s.block s.mem (heap_tracked reached).heap).2 0x1010 live x user

end Bodos
