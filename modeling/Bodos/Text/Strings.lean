import Bodos.Containers.PriorityQueue
import Bodos.Lib.Memory
import Bodos.Lib.Numeral

/-!
# Strings

`strlen`, `strcpy`, `isspace` and `itoa` of `libc/string.c`.

A string that a caller passes ends at its first NUL. A local array holds nothing until it
is written, so a read of a slot that the call has not written is a fault like an access
outside the array.

Results:
1. `strlen_holds`, `strcpy_holds`, `strcpy_overflow`: a string is copied if it fits.
2. `itoa_holds`: what `itoa` leaves in its array, and the stores it makes.
3. `itoa_renders_iff`: it renders every number but zero.
-/

namespace Bodos

open Fallible Mem32 Numeral

/-- The characters before the NUL. -/
structure CString where
  chars : List Byte
  noNul : 0 ∉ chars

/-- A local array: what the call has written to each slot, and to which slots it has
stored, the first store first. -/
structure LocalArray where
  val : Nat → Option Byte
  len : Nat
  stores : List Nat

/-- `s[i]`. -/
def CString.get (s : CString) (i : Nat) : Except Fault Byte :=
  match s.chars[i]? with
  | some c => .ok c
  | none => if i = s.chars.length then .ok 0 else .error .outOfBounds

namespace LocalArray

/-- An array when its function is entered. -/
def fresh (len : Nat) : LocalArray := ⟨fun _ => none, len, []⟩

def get (a : LocalArray) (i : Nat) : Except Fault Byte :=
  if i < a.len then
    match a.val i with
    | some c => .ok c
    | none => .error .outOfBounds
  else .error .outOfBounds

/-- The array after a store to slot `i`. -/
def put (a : LocalArray) (i : Nat) (c : Byte) : LocalArray :=
  ⟨fun k => if k = i then some c else a.val k, a.len, a.stores ++ [i]⟩

def set (a : LocalArray) (i : Nat) (c : Byte) : Except Fault LocalArray :=
  if i < a.len then .ok (a.put i c) else .error .outOfBounds

end LocalArray

/-! ## 1. The code -/

/-- The loop of `strlen` for at most `fuel` rounds, on what is read at each index. -/
def strlenLoop (get : Nat → Except Fault Byte) : Nat → Nat → Except Fault Nat
  | 0, _ => .error .outOfFuel
  | fuel + 1, len => do
    let c ← get len
    if c ≠ 0 then strlenLoop get fuel (len + 1) else return len

def CString.strlen (s : CString) : Except Fault Nat := strlenLoop s.get (s.chars.length + 1) 0

/-- An index outside the array ends the loop. -/
def LocalArray.strlen (a : LocalArray) : Except Fault Nat := strlenLoop a.get (a.len + 1) 0

/-- The loop of `strcpy` from the index `i` on. -/
def strcpyLoop (src : CString) : Nat → LocalArray → Nat → Except Fault LocalArray
  | 0, _, _ => .error .outOfFuel
  | fuel + 1, dest, i => do
    let c ← src.get i
    let dest ← dest.set i c
    if c ≠ 0 then strcpyLoop src fuel dest (i + 1) else return dest

def strcpy (dest : LocalArray) (src : CString) : Except Fault LocalArray :=
  strcpyLoop src (src.chars.length + 1) dest 0

/-- A space, `\t`, `\n` or `\a`. -/
def isspace (c : Byte) : Bool := c = 32 || c = 9 || c = 10 || c = 7

/-- The loop that counts the digits of `c`. -/
def countLoop : Nat → Word → Word → Except Fault Word
  | 0, _, _ => .error .outOfFuel
  | fuel + 1, c, n => if c ≠ 0 then countLoop fuel (c / 10) (n + 1) else .ok n

/-- The loop that stores the digits of `val`, the last one at `i`. After the first digit
`i` is -1, which nothing uses. -/
def emitLoop : Nat → LocalArray → Word → Word → Except Fault LocalArray
  | 0, _, _, _ => .error .outOfFuel
  | fuel + 1, s, val, i =>
    if val ≠ 0 then do
      let d := val % 10
      let s ← s.set i.toNat (48 + d.setWidth 8)
      emitLoop fuel s (val / 10) (i - 1)
    else .ok s

/-- `itoa`, which ignores its base. -/
def itoa (val : Word) (s : LocalArray) : Except Fault LocalArray := do
  let n ← countLoop (val.toNat + 1) val 0
  let s ← s.set n.toNat 0
  emitLoop (val.toNat + 1) s val (n - 1)

/-! ## 2. What an array holds -/

/-- The array holds the string, with its NUL. -/
structure LocalArray.Holds (a : LocalArray) (text : List Byte) : Prop where
  noNul : 0 ∉ text
  room : text.length < a.len
  chars : ∀ i c, text[i]? = some c → a.val i = some c
  nul : a.val text.length = some 0

variable {a b : LocalArray} {s : CString} {text : List Byte} {i : Nat} {c : Byte}

namespace CString

theorem get_char (h : s.chars[i]? = some c) : s.get i = .ok c := by
  rw [get, h]

theorem get_length (s : CString) : s.get s.chars.length = .ok 0 := by
  rw [get, List.getElem?_eq_none (Nat.le_refl _)]
  exact if_pos rfl

theorem char_ne_zero (h : s.chars[i]? = some c) : c ≠ 0 := fun zero =>
  s.noNul (zero ▸ List.mem_of_getElem? h)

end CString

namespace LocalArray

theorem get_eq (inside : i < a.len) (h : a.val i = some c) : a.get i = .ok c := by
  rw [get, if_pos inside, h]

@[simp] theorem put_len (a : LocalArray) (i : Nat) (c : Byte) : (a.put i c).len = a.len := rfl

@[simp] theorem put_same (a : LocalArray) (i : Nat) (c : Byte) : (a.put i c).val i = some c :=
  if_pos rfl

theorem put_other (a : LocalArray) {i k : Nat} (c : Byte) (ne : k ≠ i) :
    (a.put i c).val k = a.val k := if_neg ne

theorem set_eq (inside : i < a.len) (c : Byte) : a.set i c = .ok (a.put i c) := if_pos inside

theorem Holds.get_char (h : a.Holds text) (found : text[i]? = some c) : a.get i = .ok c := by
  obtain ⟨short, -⟩ := List.getElem?_eq_some_iff.mp found
  exact get_eq (short.trans h.room) (h.chars i c found)

end LocalArray

/-- The loop of `strlen` stops at the first NUL. -/
theorem strlenLoop_eq {get : Nat → Except Fault Byte} (noNul : 0 ∉ text)
    (chars : ∀ i c, text[i]? = some c → get i = .ok c) (nul : get text.length = .ok 0)
    {fuel : Nat} (le : i ≤ text.length) (enough : text.length - i < fuel) :
    strlenLoop get fuel i = .ok text.length := by
  induction fuel generalizing i with
  | zero => omega
  | succ fuel ih =>
      rw [strlenLoop]
      rcases Nat.lt_or_eq_of_le le with short | rfl
      · have found : text[i]? = some text[i] := List.getElem?_eq_getElem short
        have nonzero : text[i] ≠ 0 := fun zero => noNul (zero ▸ List.getElem_mem short)
        rw [chars i _ found, ok_bind, if_pos nonzero]
        exact ih short (by omega)
      · rw [nul, ok_bind, if_neg (not_not_intro rfl)]
        rfl

theorem CString.strlen_eq (s : CString) : s.strlen = .ok s.chars.length :=
  strlenLoop_eq s.noNul (fun _ _ => get_char) s.get_length (Nat.zero_le _) (by omega)

theorem strlen_holds (h : a.Holds text) : a.strlen = .ok text.length := by
  refine strlenLoop_eq h.noNul (fun _ _ => h.get_char) ?_ (Nat.zero_le _) ?_
  · exact LocalArray.get_eq h.room h.nul
  · have room := h.room
    omega

/-- Before anything is written there is no NUL to be found. -/
theorem strlen_fresh (len : Nat) : (LocalArray.fresh len).strlen = .error .outOfBounds := by
  rw [LocalArray.strlen, strlenLoop]
  have unwritten : (LocalArray.fresh len).get 0 = .error .outOfBounds := by
    unfold LocalArray.get
    split
    · rfl
    · rfl
  rw [unwritten]
  rfl

/-! ## 3. `strcpy` -/

theorem strcpyLoop_holds {fuel : Nat} (room : s.chars.length < a.len) (le : i ≤ s.chars.length)
    (enough : s.chars.length - i < fuel)
    (done : ∀ j < i, ∀ c, s.chars[j]? = some c → a.val j = some c) :
    ∃ b, strcpyLoop s fuel a i = .ok b ∧ b.Holds s.chars ∧ b.len = a.len := by
  induction fuel generalizing a i with
  | zero => omega
  | succ fuel ih =>
      rw [strcpyLoop]
      rcases Nat.lt_or_eq_of_le le with short | rfl
      · have found : s.chars[i]? = some s.chars[i] := List.getElem?_eq_getElem short
        rw [CString.get_char found, ok_bind, LocalArray.set_eq (short.trans room), ok_bind,
          if_pos (CString.char_ne_zero found)]
        refine ih (a := a.put i s.chars[i]) room short (by omega) fun j earlier c at_j => ?_
        by_cases here : j = i
        · subst here
          rw [LocalArray.put_same, ← found, at_j]
        · rw [LocalArray.put_other _ _ here]
          exact done j (by omega) c at_j
      · rw [s.get_length, ok_bind, LocalArray.set_eq room, ok_bind, if_neg (not_not_intro rfl)]
        refine ⟨_, rfl, ⟨s.noNul, room, fun j c at_j => ?_, a.put_same _ 0⟩, rfl⟩
        obtain ⟨short, -⟩ := List.getElem?_eq_some_iff.mp at_j
        rw [LocalArray.put_other _ _ (Nat.ne_of_lt short)]
        exact done j short c at_j

theorem strcpy_holds (room : s.chars.length < a.len) :
    ∃ b, strcpy a s = .ok b ∧ b.Holds s.chars ∧ b.len = a.len :=
  strcpyLoop_holds room (Nat.zero_le _) (by omega) fun j none => absurd none (Nat.not_lt_zero j)

theorem strcpyLoop_overflow {fuel : Nat} (long : a.len ≤ s.chars.length) (le : i ≤ a.len)
    (enough : a.len - i < fuel) : strcpyLoop s fuel a i = .error .outOfBounds := by
  induction fuel generalizing a i with
  | zero => omega
  | succ fuel ih =>
      rw [strcpyLoop]
      rcases Nat.lt_or_eq_of_le le with inside | rfl
      · have found : s.chars[i]? = some s.chars[i] := List.getElem?_eq_getElem (by omega)
        rw [CString.get_char found, ok_bind, LocalArray.set_eq inside, ok_bind,
          if_pos (CString.char_ne_zero found)]
        exact ih (a := a.put i s.chars[i]) long inside (by rw [LocalArray.put_len]; omega)
      · have stuck : ∀ c, a.set a.len c = .error .outOfBounds := fun c =>
          if_neg (Nat.lt_irrefl _)
        have read : ∃ c, s.get a.len = .ok c := by
          rcases Nat.lt_or_eq_of_le long with short | same
          · exact ⟨_, CString.get_char (List.getElem?_eq_getElem short)⟩
          · exact ⟨0, same ▸ s.get_length⟩
        obtain ⟨c, read⟩ := read
        rw [read, ok_bind, stuck]
        rfl

/-- A string that does not fit is copied beyond the end of the array. -/
theorem strcpy_overflow (long : a.len ≤ s.chars.length) : strcpy a s = .error .outOfBounds :=
  strcpyLoop_overflow long (Nat.zero_le _) (by omega)

/-! ## 4. `itoa` -/

/-- The sign for a digit, `'0' + d`. -/
def digitByte (d : Nat) : Byte := BitVec.ofNat 8 (48 + d)

/-- The value of a sign. -/
def digitValue (c : Byte) : Nat := c.toNat - 48

def decimal (val : Word) : List Byte := numeral 10 digitByte val.toNat

variable {val n : Word}

theorem digitByte_toNat {d : Nat} (small : d < 10) : (digitByte d).toNat = 48 + d := by
  rw [digitByte, BitVec.toNat_ofNat]
  exact Nat.mod_eq_of_lt (by omega)

theorem toNat_ne_zero (nonzero : val ≠ 0) : val.toNat ≠ 0 := fun zero =>
  nonzero (BitVec.eq_of_toNat_eq zero)

theorem decimal_length_le (val : Word) : (decimal val).length ≤ 10 := by
  rw [decimal, length_le_iff (by decide)]
  exact Nat.lt_of_lt_of_le val.isLt (by decide)

/-- The number of digits, as an `unsigned int`. -/
theorem decimal_index (val : Word) :
    (BitVec.ofNat 32 (decimal val).length).toNat = (decimal val).length := by
  have few := decimal_length_le val
  rw [BitVec.toNat_ofNat]
  exact Nat.mod_eq_of_lt (by omega)

theorem decimal_step (nonzero : val ≠ 0) :
    decimal val = decimal (val / 10) ++ [48 + (val % 10).setWidth 8] := by
  have sign : 48 + (val % 10).setWidth 8 = digitByte (val.toNat % 10) := by
    refine BitVec.eq_of_toNat_eq ?_
    rw [digitByte_toNat (Nat.mod_lt _ (by decide))]
    simp [BitVec.toNat_umod]
    omega
  rw [decimal, numeral_step (by decide) (toNat_ne_zero nonzero), sign]
  rfl

theorem decimal_zero : decimal 0 = [] := numeral_zero

theorem digit_of_mem {c : Byte} (h : c ∈ decimal val) : 48 ≤ c.toNat ∧ c.toNat ≤ 57 := by
  obtain ⟨d, small, rfl⟩ := mem_numeral (by decide) h
  rw [digitByte_toNat small]
  omega

theorem decimal_noNul (val : Word) : 0 ∉ decimal val := fun member =>
  absurd (digit_of_mem member).1 (by decide)

theorem div_lt {fuel : Nat} (nonzero : val ≠ 0) (enough : val.toNat < fuel + 1) :
    (val / 10).toNat < fuel := by
  have some := toNat_ne_zero nonzero
  have quotient : (val / 10).toNat = val.toNat / 10 := rfl
  omega

/-- The first loop counts the digits that the second one stores. -/
theorem countLoop_eq {fuel : Nat} (enough : val.toNat < fuel) :
    countLoop fuel val n = .ok (n + BitVec.ofNat 32 (decimal val).length) := by
  induction fuel generalizing val n with
  | zero => omega
  | succ fuel ih =>
      rw [countLoop]
      split
      · rename_i nonzero
        rw [ih (div_lt nonzero enough), decimal_step nonzero, List.length_append,
          List.length_singleton, Nat.add_comm _ 1, BitVec.ofNat_add, ← BitVec.add_assoc]
        rfl
      · rename_i zero
        rw [not_not.mp zero, decimal_zero]
        exact congrArg Except.ok (BitVec.add_zero n).symm

/-- What the second loop has done to the array: the digits are in their places, stored
from the last one to the first. -/
structure Emitted (a b : LocalArray) (text : List Byte) : Prop where
  len : b.len = a.len
  chars : ∀ i c, text[i]? = some c → b.val i = some c
  frame : ∀ i, text.length ≤ i → b.val i = a.val i
  stores : b.stores = a.stores ++ (List.range text.length).reverse

theorem Emitted.append (h : Emitted (a.put text.length c) b text) : Emitted a b (text ++ [c]) where
  len := h.len
  chars i d found := by
    rcases Nat.lt_trichotomy i text.length with before | rfl | behind
    · rw [List.getElem?_append_left before] at found
      exact h.chars i d found
    · rw [List.getElem?_concat_length] at found
      rw [h.frame _ (Nat.le_refl _), LocalArray.put_same, found]
    · rw [List.getElem?_eq_none (by rw [List.length_append]; exact behind)] at found
      cases found
  frame i beyond := by
    rw [List.length_append, List.length_singleton] at beyond
    rw [h.frame i (by omega), LocalArray.put_other _ _ (by omega)]
  stores := by
    rw [h.stores, List.length_append, List.length_singleton, List.range_succ, List.reverse_append]
    exact List.append_assoc a.stores [_] _

theorem emitLoop_emits {fuel : Nat} (enough : val.toNat < fuel)
    (room : (decimal val).length ≤ a.len) :
    ∃ b, emitLoop fuel a val (BitVec.ofNat 32 (decimal val).length - 1) = .ok b ∧
      Emitted a b (decimal val) := by
  induction fuel generalizing a val with
  | zero => omega
  | succ fuel ih =>
      rw [emitLoop]
      split
      · rename_i nonzero
        have length : (decimal val).length = (decimal (val / 10)).length + 1 := by
          rw [decimal_step nonzero, List.length_append]
          rfl
        have index : (BitVec.ofNat 32 (decimal val).length - 1) =
            BitVec.ofNat 32 (decimal (val / 10)).length := by
          rw [length, BitVec.ofNat_add]
          exact BitVec.add_sub_cancel _ _
        have inside : (decimal (val / 10)).length < a.len := by omega
        dsimp only
        rw [index, decimal_index, LocalArray.set_eq inside, ok_bind, decimal_step nonzero]
        obtain ⟨b, run, emitted⟩ :=
          ih (a := a.put (decimal (val / 10)).length _) (div_lt nonzero enough) inside.le
        exact ⟨b, run, emitted.append⟩
      · rename_i zero
        rw [not_not.mp zero, decimal_zero]
        refine ⟨a, rfl, rfl, fun i c found => ?_, fun _ _ => rfl, ?_⟩
        · cases found
        · exact (List.append_nil _).symm

/-- `itoa` stores the NUL behind the last digit first, and then the digits from the last
one to the first. -/
theorem itoa_holds (val : Word) (room : (decimal val).length < a.len) :
    ∃ b, itoa val a = .ok b ∧ b.Holds (decimal val) ∧ b.len = a.len ∧
      b.stores = a.stores ++ (List.range ((decimal val).length + 1)).reverse := by
  have counted : (0 : Word) + BitVec.ofNat 32 (decimal val).length =
      BitVec.ofNat 32 (decimal val).length := BitVec.zero_add _
  rw [itoa, countLoop_eq (Nat.lt_succ_self _), ok_bind, counted, decimal_index,
    LocalArray.set_eq room, ok_bind]
  obtain ⟨b, run, len, chars, frame, stores⟩ :=
    emitLoop_emits (a := a.put (decimal val).length 0) (Nat.lt_succ_self val.toNat) room.le
  refine ⟨b, run, ⟨decimal_noNul val, len ▸ room, chars, ?_⟩, len, ?_⟩
  · rw [frame _ (Nat.le_refl _), LocalArray.put_same]
  · rw [stores, List.range_succ, List.reverse_append]
    exact List.append_assoc a.stores [_] _

/-- The array holds the digits of `val` with a NUL right behind them, without a leading
zero that is not the only digit. At most 11 stores were made, each to an index between 0
and the number of digits. -/
structure RendersDecimal (val : Word) (a b : LocalArray) (text : List Byte) : Prop where
  nonempty : text ≠ []
  digits : ∀ c ∈ text, 48 ≤ c.toNat ∧ c.toNat ≤ 57
  noLeadingZero : text.head? = some 48 → text.length = 1
  holds : b.Holds text
  value : value 10 digitValue text = val.toNat
  stores : ∃ indices, b.stores = a.stores ++ indices ∧ indices.length ≤ 11 ∧
    ∀ i ∈ indices, i ≤ text.length

theorem decimal_value (val : Word) : value 10 digitValue (decimal val) = val.toNat :=
  value_numeral (by decide) fun d small => by
    rw [digitValue, digitByte_toNat small, Nat.add_sub_cancel_left]

theorem decimal_head (nonzero : val ≠ 0) : (decimal val).head? ≠ some 48 := by
  obtain ⟨d, positive, small, head⟩ : ∃ d, 0 < d ∧ d < 10 ∧
      (numeral 10 digitByte val.toNat).head? = some (digitByte d) :=
    numeral_head (by decide) (toNat_ne_zero nonzero)
  rw [decimal, head]
  intro zero
  have sign := congrArg BitVec.toNat (Option.some.inj zero)
  rw [digitByte_toNat small] at sign
  change 48 + d = 48 at sign
  omega

/-- For zero the first loop finds no digit, and the string is empty. -/
theorem itoa_renders_iff (val : Word) {a : LocalArray} (room : 11 ≤ a.len) :
    (∃ b, itoa val a = .ok b ∧ ∃ text, RendersDecimal val a b text) ↔ val ≠ 0 := by
  have few := decimal_length_le val
  obtain ⟨b, run, holds, -, stores⟩ := itoa_holds (a := a) val (by omega)
  constructor
  · rintro ⟨b', run', text, renders⟩ zero
    obtain rfl : b = b' := Except.ok.inj (run.symm.trans run')
    have nul := holds.nul
    rw [zero, decimal_zero] at nul
    obtain ⟨c, rest, rfl⟩ := List.exists_cons_of_ne_nil renders.nonempty
    have first := renders.holds.chars 0 c rfl
    rw [show ([] : List Byte).length = 0 from rfl, first] at nul
    have digit := (renders.digits c List.mem_cons_self).1
    rw [Option.some.inj nul] at digit
    exact absurd digit (by decide)
  · intro nonzero
    refine ⟨b, run, decimal val, ⟨?_, fun c => digit_of_mem, ?_, holds, decimal_value val, _,
      stores, ?_, fun i member => ?_⟩⟩
    · exact numeral_ne_nil (toNat_ne_zero nonzero)
    · exact fun leading => absurd leading (decimal_head nonzero)
    · rw [List.length_reverse, List.length_range]
      omega
    · exact Nat.lt_succ_iff.mp (List.mem_range.mp (List.mem_reverse.mp member))

theorem itoa_renders_iff_answer :
    ∃ b, itoa 42 (.fresh 11) = .ok b ∧ ∃ text, RendersDecimal 42 (.fresh 11) b text :=
  (itoa_renders_iff 42 (a := .fresh 11) (Nat.le_refl 11)).mpr (by decide)

/-- Zero is rendered as the empty string. -/
theorem itoa_drops_zero :
    ∃ b, itoa 0 (.fresh 128) = .ok b ∧ b.strlen = .ok 0 ∧
      ¬ ∃ text, RendersDecimal 0 (.fresh 128) b text := by
  refine ⟨_, rfl, rfl, ?_⟩
  rintro ⟨text, renders⟩
  obtain ⟨c, rest, rfl⟩ := List.exists_cons_of_ne_nil renders.nonempty
  have digit := (renders.digits c List.mem_cons_self).1
  have first : some 0 = some c := renders.holds.chars 0 c rfl
  rw [← Option.some.inj first] at digit
  exact absurd digit (by decide)

end Bodos
