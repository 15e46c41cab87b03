import Bodos.Text.Strings

/-!
# `kprintf_level`

`kernel/kprintf.c`. A position in the format is the number of characters before it, and
`none` stands for `NULL`. An argument is a word on the stack; `strings` says which string
is found at an address. Both arrays of the call are local.

Results:
1. `searchNextArg_spec`: a search finds the first formatter.
2. `writeGen_eq`: what is sent to the target.
3. `convert_loaded`, `convert_overflow`: what a conversion leaves in `arg_container`.
-/

namespace Bodos

open Fallible Mem32

/-- A character constant. -/
def byte (c : Char) : Byte := BitVec.ofNat 8 c.toNat

inductive ArgType
  | char
  | int
  | unsignedInt
  | pointer
  | double
  | string
deriving DecidableEq, Repr

inductive LogLevel
  | trace
  | info
  | warn
  | err
  | fatal
deriving DecidableEq, Repr

inductive LogTarget
  | serialPort
  | frameBuffer
deriving DecidableEq, Repr

/-- What has been sent to the serial port and to the frame buffer. -/
structure Streams where
  serial : List Byte
  frameBuffer : List Byte
deriving DecidableEq, Repr

/-- The streams and `written`, which is an `int`. -/
structure Printed where
  streams : Streams
  written : Word
deriving DecidableEq, Repr

/-! ## 1. The code -/

def isFormatter (format : CString) (c : Nat) : Except Fault Bool := do
  if (← format.get c) = byte '%' then
    let next ← format.get (c + 1)
    return next ≠ 0 && !isspace next
  else return false

/-- The `switch` in `search_next_arg`. An unknown letter leaves `type` at `INT`. -/
def argType (format : CString) (s : Nat) : Except Fault ArgType := do
  let letter ← format.get (s + 1)
  if letter = byte 'c' then return .char
  else if letter = byte 'd' then
    let following ← format.get (s + 2)
    if following = byte 'u' then return .unsignedInt else return .int
  else if letter = byte 'p' then return .pointer
  else if letter = byte 'f' then return .double
  else if letter = byte 's' then return .string
  else return .int

/-- The number of characters in a formatter. -/
def ArgType.width (type : ArgType) : Nat := if type = .unsignedInt then 3 else 2

/-- The loop of `search_next_arg`: the type, `*arg_start` and `*next_from`. -/
def searchArgLoop (format : CString) : Nat → Nat → Except Fault (ArgType × Option Nat × Option Nat)
  | 0, _ => .error .outOfFuel
  | fuel + 1, s => do
    if (← format.get s) = 0 then return (.int, none, none)
    else if ← isFormatter format s then
      let type ← argType format s
      return (type, some s, some (s + type.width))
    else searchArgLoop format fuel (s + 1)

def searchNextArg (format : CString) (searchFrom : Nat) :
    Except Fault (ArgType × Option Nat × Option Nat) :=
  searchArgLoop format (format.chars.length + 1) searchFrom

def Streams.send (s : Streams) (data : List Byte) : LogTarget → Streams
  | .serialPort => { s with serial := s.serial ++ data }
  | .frameBuffer => { s with frameBuffer := s.frameBuffer ++ data }

/-- The characters that `serial_write` and `terminal_write` read, from `start` on. -/
def readChars (get : Nat → Except Fault Byte) : Nat → Nat → Except Fault (List Byte)
  | _, 0 => .ok []
  | start, size + 1 => do
    let c ← get start
    let rest ← readChars get (start + 1) size
    return c :: rest

/-- `write_gen`, with the addition to `written`. -/
def writeGen (get : Nat → Except Fault Byte) (start size : Nat) (target : LogTarget)
    (p : Printed) : Except Fault Printed := do
  let data ← readChars get start size
  return ⟨p.streams.send data target, p.written + BitVec.ofNat 32 size⟩

/-- The string for a level. -/
def levelString : LogLevel → CString
  | .trace => ⟨"TRACE ".toList.map byte, by decide⟩
  | .info => ⟨"INFO ".toList.map byte, by decide⟩
  | .warn => ⟨"WARN ".toList.map byte, by decide⟩
  | .err => ⟨"ERR ".toList.map byte, by decide⟩
  | .fatal => ⟨"FATAL ".toList.map byte, by decide⟩

def createLogLevelString (level : LogLevel) (buff : LocalArray) : Except Fault LocalArray :=
  strcpy buff (levelString level)

/-- `va_arg`. Beyond the arguments there is nothing to be read. -/
def vaArg : List Word → Except Fault (Word × List Word)
  | [] => .error .outOfBounds
  | a :: args => .ok (a, args)

/-- The `switch` in `kprintf_level`. -/
def convert (strings : Word → CString) (type : ArgType) (args : List Word)
    (container : LocalArray) : Except Fault (List Word × LocalArray) :=
  match type with
  | .char => do
    let (a, args) ← vaArg args
    let container ← container.set 0 (a.setWidth 8)
    let container ← container.set 1 0
    return (args, container)
  | .int | .unsignedInt | .pointer => do
    let (a, args) ← vaArg args
    let container ← itoa a container
    return (args, container)
  | .double => .ok (args, container)
  | .string => do
    let (a, args) ← vaArg args
    let container ← strcpy container (strings a)
    return (args, container)

/-- The loop of `kprintf_level`. -/
def printLoop (strings : Word → CString) (target : LogTarget) (format : CString) (len : Nat) :
    Nat → Printed → List Word → LocalArray → Nat → Except Fault Printed
  | 0, _, _, _, _ => .error .outOfFuel
  | fuel + 1, p, args, container, searchFrom => do
    let (type, argStart, nextFrom) ← searchNextArg format searchFrom
    let (args, container) ← (if argStart.isSome then convert strings type args container
      else .ok (args, container))
    let argStart := argStart.getD len
    let p ← writeGen format.get searchFrom (argStart - searchFrom) target p
    let p ← (if argStart ≠ len then do
      let size ← container.strlen
      writeGen container.get 0 size target p
    else .ok p)
    match nextFrom with
    | none => return p
    | some next => printLoop strings target format len fuel p args container next

/-- The part of `kprintf_level` before its loop: the level, and `arg_container`. -/
def printLevel (lev : LogLevel) (target : LogTarget) (appendLogLevel : Bool) (p : Printed) :
    Except Fault (Printed × LocalArray) :=
  if appendLogLevel then do
    let loglevel ← createLogLevelString lev (.fresh 8)
    let size ← loglevel.strlen
    let p ← writeGen loglevel.get 0 size target p
    let container ← (LocalArray.fresh 128).set 0 0
    return (p, container)
  else .ok (p, .fresh 128)

def kprintfLevel (strings : Word → CString) (lev : LogLevel) (target : LogTarget)
    (appendLogLevel : Bool) (format : CString) (args : List Word) (streams : Streams) :
    Except Fault Printed := do
  let len ← format.strlen
  let (p, container) ← printLevel lev target appendLogLevel ⟨streams, 0⟩
  printLoop strings target format len (len + 1) p args container 0

/-! ## 2. The pieces of a format -/

inductive Piece
  | lit (c : Byte)
  | conv (type : ArgType)
deriving DecidableEq, Repr

/-- The type for the characters behind a `%`. -/
def typeOf (letter : Byte) (rest : List Byte) : ArgType :=
  if letter = byte 'c' then .char
  else if letter = byte 'd' then
    if rest.head? = some (byte 'u') then .unsignedInt else .int
  else if letter = byte 'p' then .pointer
  else if letter = byte 'f' then .double
  else if letter = byte 's' then .string
  else .int

/-- The formatter that the text starts with. -/
def formatter : List Byte → Option ArgType
  | c :: letter :: rest =>
    if c = byte '%' ∧ isspace letter = false then some (typeOf letter rest) else none
  | _ => none

/-- The pieces of the text behind its first `skip` characters. -/
def piecesFrom : Nat → List Byte → List Piece
  | _, [] => []
  | skip + 1, _ :: text => piecesFrom skip text
  | 0, c :: text =>
    match formatter (c :: text) with
    | some type => .conv type :: piecesFrom (type.width - 1) text
    | none => .lit c :: piecesFrom 0 text

/-- The formatters of the text and its other characters, from the left. -/
def pieces (text : List Byte) : List Piece := piecesFrom 0 text

variable {format : CString} {text rest : List Byte} {s : Nat} {type : ArgType} {c : Byte}

theorem piecesFrom_eq_drop (skip : Nat) (text : List Byte) :
    piecesFrom skip text = pieces (text.drop skip) := by
  induction text generalizing skip with
  | nil => rw [List.drop_nil, piecesFrom, pieces, piecesFrom]
  | cons c text ih =>
      cases skip with
      | zero => rfl
      | succ skip =>
          rw [piecesFrom, List.drop_succ_cons]
          exact ih skip

theorem pieces_lit (other : formatter (c :: rest) = none) :
    pieces (c :: rest) = .lit c :: pieces rest := by
  rw [pieces, piecesFrom, other]
  rfl

theorem pieces_conv (found : formatter (c :: rest) = some type) :
    pieces (c :: rest) = .conv type :: pieces ((c :: rest).drop type.width) := by
  have width : type.width = type.width - 1 + 1 := by cases type <;> rfl
  rw [pieces, piecesFrom, found, width, List.drop_succ_cons, ← piecesFrom_eq_drop]

/-- A formatter lies inside the text. -/
theorem formatter_width (found : formatter text = some type) : type.width ≤ text.length := by
  match text with
  | [] => cases found
  | [_] => cases found
  | c :: letter :: rest =>
      rw [formatter] at found
      split at found
      · cases Option.some.inj found
        cases rest with
        | nil =>
            have noMore : ([] : List Byte).head? ≠ some (byte 'u') := by decide
            have other : typeOf letter [] ≠ .unsignedInt := by
              rw [typeOf, if_neg noMore]
              split_ifs <;> decide
            rw [ArgType.width, if_neg other]
            rfl
        | cons next rest =>
            have most : (typeOf letter (next :: rest)).width ≤ 3 := by
              rw [ArgType.width]
              split <;> omega
            simp only [List.length_cons]
            omega
      · cases found

/-- What is read at a position, also at the end. -/
theorem CString.get_head (inside : s ≤ format.chars.length) :
    format.get s = .ok ((format.chars.drop s).headD 0) := by
  rcases Nat.lt_or_eq_of_le inside with short | rfl
  · rw [List.drop_eq_getElem_cons short, get_char (List.getElem?_eq_getElem short)]
    rfl
  · rw [get_length, List.drop_length]
    rfl

theorem drop_next (here : format.chars.drop s = c :: rest) :
    format.chars.drop (s + 1) = rest ∧ s + 1 ≤ format.chars.length := by
  have short : s < format.chars.length := by
    have length := congrArg List.length here
    rw [List.length_drop, List.length_cons] at length
    omega
  rw [← List.drop_drop, here]
  exact ⟨rfl, short⟩

theorem get_here (here : format.chars.drop s = c :: rest) : format.get s = .ok c := by
  have short := (drop_next here).2
  rw [CString.get_head (by omega), here]
  rfl

theorem char_here (here : format.chars.drop s = c :: rest) : c ≠ 0 := fun zero =>
  format.noNul (zero ▸ List.mem_of_mem_drop (here ▸ List.mem_cons_self))

theorem isFormatter_eq (here : format.chars.drop s = c :: rest) :
    isFormatter format s = .ok (formatter (c :: rest)).isSome := by
  obtain ⟨after, inside⟩ := drop_next here
  rw [isFormatter, get_here here, ok_bind]
  by_cases percent : c = byte '%'
  · rw [if_pos percent, CString.get_head inside, after, ok_bind]
    cases rest with
    | nil => rfl
    | cons letter rest =>
        have nonzero : letter ≠ 0 := char_here after
        rw [List.headD_cons, decide_eq_true nonzero, formatter]
        cases isspace letter with
        | false =>
            rw [if_pos ⟨percent, rfl⟩]
            rfl
        | true =>
            rw [if_neg fun both => Bool.noConfusion both.2]
            rfl
  · rw [if_neg percent]
    cases rest with
    | nil => rfl
    | cons letter rest =>
        rw [formatter, if_neg fun both => percent both.1]
        rfl

theorem argType_eq (here : format.chars.drop s = c :: rest)
    (found : formatter (c :: rest) = some type) : argType format s = .ok type := by
  obtain ⟨after, inside⟩ := drop_next here
  cases rest with
  | nil => cases found
  | cons letter rest =>
      rw [formatter] at found
      split at found
      · obtain rfl := Option.some.inj found
        obtain ⟨next, inside'⟩ := drop_next after
        have following : rest.headD 0 = byte 'u' ↔ rest.head? = some (byte 'u') := by
          cases rest with
          | nil => decide
          | cons d rest => simp
        rw [argType, get_here after, ok_bind, CString.get_head inside', next, typeOf]
        simp only [ok_bind, following]
        split_ifs <;> rfl
      · cases found

/-- The search stops at the end or at the first formatter. All characters before it are
literal. -/
theorem searchArgLoop_spec {fuel : Nat} (inside : s ≤ format.chars.length)
    (enough : format.chars.length - s < fuel) :
    (searchArgLoop format fuel s = .ok (.int, none, none) ∧
      pieces (format.chars.drop s) = (format.chars.drop s).map .lit) ∨
    (∃ k type, searchArgLoop format fuel s = .ok (type, some k, some (k + type.width)) ∧
      s ≤ k ∧ k < format.chars.length ∧ k + type.width ≤ format.chars.length ∧
      pieces (format.chars.drop s) = ((format.chars.drop s).take (k - s)).map .lit ++
        .conv type :: pieces (format.chars.drop (k + type.width))) := by
  induction fuel generalizing s with
  | zero => omega
  | succ fuel ih =>
      rw [searchArgLoop]
      cases here : format.chars.drop s with
      | nil =>
          rw [CString.get_head inside, here, ok_bind]
          exact .inl ⟨rfl, rfl⟩
      | cons c rest =>
          obtain ⟨after, inside'⟩ := drop_next here
          rw [get_here here, ok_bind, if_neg (char_here here), isFormatter_eq here, ok_bind]
          cases found : formatter (c :: rest) with
          | some type =>
              have width := formatter_width found
              have length : (c :: rest).length = format.chars.length - s := by
                rw [← here, List.length_drop]
              refine .inr ⟨s, type, ?_, Nat.le_refl s, inside', by omega, ?_⟩
              · rw [Option.isSome_some, if_pos rfl, argType_eq here found]
                rfl
              · rw [pieces_conv found, Nat.sub_self, ← here, List.drop_drop]
                rfl
          | none =>
              rw [Option.isSome_none, if_neg Bool.false_ne_true, pieces_lit found]
              have later := ih inside' (by omega)
              rw [after] at later
              rcases later with ⟨run, rest'⟩ | ⟨k, type, run, le, short, fits, rest'⟩
              · exact .inl ⟨run, by rw [rest']; rfl⟩
              · refine .inr ⟨k, type, run, by omega, short, fits, ?_⟩
                have one : k - s = k - (s + 1) + 1 := by omega
                rw [one, List.take_succ_cons, rest']
                rfl

theorem searchNextArg_spec (inside : s ≤ format.chars.length) :
    (searchNextArg format s = .ok (.int, none, none) ∧
      pieces (format.chars.drop s) = (format.chars.drop s).map .lit) ∨
    (∃ k type, searchNextArg format s = .ok (type, some k, some (k + type.width)) ∧
      s ≤ k ∧ k < format.chars.length ∧ k + type.width ≤ format.chars.length ∧
      pieces (format.chars.drop s) = ((format.chars.drop s).take (k - s)).map .lit ++
        .conv type :: pieces (format.chars.drop (k + type.width))) :=
  searchArgLoop_spec inside (by omega)

/-! ## 3. Writing -/

/-- The outcome after more text has gone to the target. -/
def Printed.print (p : Printed) (data : List Byte) (target : LogTarget) : Printed :=
  ⟨p.streams.send data target, p.written + BitVec.ofNat 32 data.length⟩

variable {p : Printed} {target : LogTarget} {get : Nat → Except Fault Byte}

theorem Streams.send_append (s : Streams) (data more : List Byte) (target : LogTarget) :
    (s.send data target).send more target = s.send (data ++ more) target := by
  cases target <;> simp [Streams.send]

theorem Printed.print_append (p : Printed) (data more : List Byte) (target : LogTarget) :
    (p.print data target).print more target = p.print (data ++ more) target := by
  simp only [print, Streams.send_append, List.length_append, BitVec.ofNat_add, BitVec.add_assoc]

theorem readChars_eq {start : Nat} (chars : ∀ i c, text[i]? = some c → get (start + i) = .ok c) :
    readChars get start text.length = .ok text := by
  induction text generalizing start with
  | nil => rfl
  | cons c text ih =>
      have tail : readChars get (start + 1) text.length = .ok text := ih fun i d found => by
        rw [Nat.add_assoc, Nat.add_comm 1 i]
        exact chars (i + 1) d found
      have head : get start = .ok c := chars 0 c rfl
      rw [List.length_cons, readChars, head, ok_bind, tail]
      rfl

theorem writeGen_eq {start : Nat} (chars : ∀ i c, text[i]? = some c → get (start + i) = .ok c) :
    writeGen get start text.length target p = .ok (p.print text target) := by
  rw [writeGen, readChars_eq chars]
  rfl

/-- A part of the format. -/
theorem writeGen_format {size : Nat} (inside : s + size ≤ format.chars.length) :
    writeGen format.get s size target p =
      .ok (p.print ((format.chars.drop s).take size) target) := by
  have length : ((format.chars.drop s).take size).length = size := by
    rw [List.length_take, List.length_drop]
    omega
  have write : writeGen format.get s ((format.chars.drop s).take size).length target p = _ :=
    writeGen_eq fun i c found => by
      have short := (List.getElem?_eq_some_iff.mp found).1
      rw [List.getElem?_take_of_lt (by omega), List.getElem?_drop] at found
      exact CString.get_char found
  rw [length] at write
  exact write

/-- The string that an array holds. -/
theorem writeGen_holds {a : LocalArray} (h : a.Holds text) :
    writeGen a.get 0 text.length target p = .ok (p.print text target) :=
  writeGen_eq fun i c found => by
    rw [Nat.zero_add]
    exact h.get_char found

/-! ## 4. Conversions -/

/-- What `arg_container` holds, if the call has written to it. -/
def Carries (container : LocalArray) : Option (List Byte) → Prop
  | none => container = .fresh 128
  | some text => container.Holds text ∧ container.len = 128

/-- The text for an argument. A `%f` has none of its own. -/
def rendering (strings : Word → CString) (type : ArgType) (a : Word) : List Byte :=
  match type with
  | .char => if a.setWidth 8 = (0 : Byte) then [] else [a.setWidth 8]
  | .int | .unsignedInt | .pointer => decimal a
  | .double => []
  | .string => (strings a).chars

/-- A string argument fits into `arg_container`. -/
def Fits (strings : Word → CString) (type : ArgType) (a : Word) : Prop :=
  type = .string → (strings a).chars.length < 128

instance (strings : Word → CString) (type : ArgType) (a : Word) :
    Decidable (Fits strings type a) := inferInstanceAs (Decidable (_ → _))

variable {strings : Word → CString} {a : Word} {args : List Word} {container : LocalArray}
  {prev : Option (List Byte)}

theorem Carries.len (h : Carries container prev) : container.len = 128 := by
  cases prev with
  | none =>
      cases h
      rfl
  | some text => exact h.2

theorem holds_nil {a : LocalArray} (room : 0 < a.len) (nul : a.val 0 = some 0) : a.Holds [] := by
  refine ⟨List.not_mem_nil, room, fun i c found => ?_, nul⟩
  cases found

/-- `arg_container[0] = c`, followed by `arg_container[1] = '\0'`. -/
theorem holds_char {a : LocalArray} (room : 1 < a.len) (c : Byte) :
    ((a.put 0 c).put 1 0).Holds (if c = 0 then [] else [c]) := by
  have first : ((a.put 0 c).put 1 0).val 0 = some c := by
    rw [LocalArray.put_other _ _ Nat.zero_ne_one, LocalArray.put_same]
  split
  · rename_i zero
    exact holds_nil (Nat.zero_lt_of_lt room) (zero ▸ first)
  · rename_i nonzero
    refine ⟨fun member => nonzero (List.mem_singleton.mp member).symm, room, fun i d found => ?_,
      LocalArray.put_same _ 1 0⟩
    cases i with
    | zero => exact first.trans found
    | succ i => cases found

/-- A conversion with an argument leaves its text in the array. -/
theorem convert_loaded (room : container.len = 128) (value : type ≠ .double)
    (fits : Fits strings type a) :
    ∃ b, convert strings type (a :: args) container = .ok (args, b) ∧
      Carries b (some (rendering strings type a)) := by
  have number : ∃ b, itoa a container = .ok b ∧ Carries b (some (decimal a)) := by
    have few := decimal_length_le a
    obtain ⟨b, run, holds, len, -⟩ := itoa_holds (a := container) a (by omega)
    exact ⟨b, run, holds, len.trans room⟩
  cases type with
  | char =>
      have inside : 0 < container.len ∧ 1 < (container.put 0 (a.setWidth 8)).len := by
        rw [LocalArray.put_len, room]
        decide
      refine ⟨_, ?_, holds_char (a := container) inside.2 (a.setWidth 8), room⟩
      rw [convert, vaArg, ok_bind]
      simp only [LocalArray.set_eq inside.1, LocalArray.set_eq inside.2, ok_bind]
      rfl
  | int | unsignedInt | pointer =>
      obtain ⟨b, run, carries⟩ := number
      refine ⟨b, ?_, carries⟩
      rw [convert, vaArg, ok_bind]
      simp only [run, ok_bind]
      rfl
  | double => exact absurd rfl value
  | string =>
      obtain ⟨b, run, holds, len⟩ := strcpy_holds (a := container) (s := strings a)
        (room ▸ fits rfl)
      refine ⟨b, ?_, holds, len.trans room⟩
      rw [convert, vaArg, ok_bind]
      simp only [run, ok_bind]
      rfl

theorem convert_overflow (room : container.len = 128) (long : ¬ Fits strings type a) :
    convert strings type (a :: args) container = .error .outOfBounds := by
  obtain ⟨rfl, long⟩ := Classical.not_imp.mp long
  have copied : strcpy container (strings a) = .error .outOfBounds :=
    strcpy_overflow (by omega)
  rw [convert, vaArg, ok_bind]
  simp only [copied]
  rfl

theorem convert_noArg (value : type ≠ .double) :
    convert strings type [] container = .error .outOfBounds := by
  cases type <;> first | rfl | exact absurd rfl value

end Bodos
