import Bodos.Text.Kprintf

/-!
# What `kprintf_level` sends

`arg_container` keeps the text of the last conversion. A `%f` writes nothing into it, and
what is sent for it is the text of the conversion before.

Results:
1. `kprintfLevel_eq`: a call sends its output, or it leaves an array.
2. `kprintf_formats`: without `%f`, each argument is sent in the place of its formatter.
3. `kprintf_in_bounds_iff`: when a call stays inside its arrays.
-/

namespace Bodos

open Fallible Mem32

/-! ## 1. The output -/

/-- The text in `arg_container` after a conversion, and the remaining arguments. There is
no text where the conversion goes wrong or the array has none. -/
def loaded (strings : Word → CString) (type : ArgType) (prev : Option (List Byte))
    (args : List Word) : Option (List Byte × List Word) :=
  if type = .double then prev.map (·, args)
  else match args with
    | [] => none
    | a :: args => if Fits strings type a then some (rendering strings type a, args) else none

/-- What is sent for the pieces, if `prev` is the text in `arg_container`. -/
def output (strings : Word → CString) :
    Option (List Byte) → List Piece → List Word → Option (List Byte)
  | _, [], _ => some []
  | prev, .lit c :: ps, args => (output strings prev ps args).map (c :: ·)
  | prev, .conv type :: ps, args => do
    let (text, args) ← loaded strings type prev args
    let rest ← output strings (some text) ps args
    return text ++ rest

/-- The format with each formatter replaced by the text of its argument. -/
def render (strings : Word → CString) : List Piece → List Word → List Byte
  | .lit c :: ps, args => c :: render strings ps args
  | .conv type :: ps, a :: args => rendering strings type a ++ render strings ps args
  | _, _ => []

/-- The formatters, in order. -/
def conversions : List Piece → List ArgType
  | [] => []
  | .lit _ :: ps => conversions ps
  | .conv type :: ps => type :: conversions ps

/-- The formatters that take an argument. -/
def valued (ps : List Piece) : List ArgType := (conversions ps).filter (· ≠ .double)

/-- What is sent before the format. -/
def levelPrefix (lev : LogLevel) (appendLogLevel : Bool) : List Byte :=
  if appendLogLevel then (levelString lev).chars else []

/-! ## 2. The loop -/

variable {strings : Word → CString} {target : LogTarget} {format : CString} {p : Printed}
  {args rest : List Word} {container : LocalArray} {prev : Option (List Byte)} {type : ArgType}
  {s : Nat} {text : List Byte}

theorem loaded_double : loaded strings .double prev args = prev.map (·, args) := if_pos rfl

theorem loaded_value {a : Word} (value : type ≠ .double) :
    loaded strings type prev (a :: args) =
      if Fits strings type a then some (rendering strings type a, args) else none := if_neg value

theorem output_lits (data : List Byte) (ps : List Piece) :
    output strings prev (data.map .lit ++ ps) args =
      (output strings prev ps args).map (data ++ ·) := by
  induction data with
  | nil => exact (congrFun Option.map_id _).symm
  | cons c data ih =>
      rw [List.map_cons, List.cons_append, output, ih, Option.map_map]
      rfl

theorem convert_text (carries : Carries container prev)
    (h : loaded strings type prev args = some (text, rest)) :
    ∃ b, convert strings type args container = .ok (rest, b) ∧ Carries b (some text) := by
  unfold loaded at h
  split at h
  · rename_i double
    obtain ⟨text', rfl, pair⟩ := Option.map_eq_some_iff.mp h
    cases pair
    rw [double]
    exact ⟨container, rfl, carries⟩
  · rename_i value
    cases args with
    | nil => cases h
    | cons a args =>
        dsimp only at h
        split at h
        · rename_i fits
          cases h
          exact convert_loaded carries.len value fits
        · cases h

/-- Without a text, the conversion or the `strlen` behind it leaves an array. -/
theorem convert_fault (carries : Carries container prev)
    (h : loaded strings type prev args = none) :
    convert strings type args container = .error .outOfBounds ∨
      (convert strings type args container = .ok (args, container) ∧
        container.strlen = .error .outOfBounds) := by
  unfold loaded at h
  split at h
  · rename_i double
    cases Option.map_eq_none_iff.mp h
    have fresh : container = .fresh 128 := carries
    rw [double, fresh]
    exact .inr ⟨rfl, strlen_fresh 128⟩
  · rename_i value
    cases args with
    | nil => exact .inl (convert_noArg value)
    | cons a args =>
        dsimp only at h
        split at h
        · cases h
        · rename_i long
          exact .inl (convert_overflow carries.len long)

/-- The outcome for an output. -/
def outcome (p : Printed) (target : LogTarget) : Option (List Byte) → Except Fault Printed
  | some text => .ok (p.print text target)
  | none => .error .outOfBounds

theorem outcome_append (p : Printed) (data : List Byte) (target : LogTarget)
    (more : Option (List Byte)) :
    outcome (p.print data target) target more = outcome p target (more.map (data ++ ·)) := by
  cases more with
  | none => rfl
  | some text => exact congrArg Except.ok (p.print_append data text target)

/-- The induction is on the rounds; a round sends the characters up to the next formatter
and the text for it. -/
theorem printLoop_eq {fuel : Nat} (inside : s ≤ format.chars.length)
    (enough : format.chars.length - s < fuel) (carries : Carries container prev) :
    printLoop strings target format format.chars.length fuel p args container s =
      outcome p target (output strings prev (pieces (format.chars.drop s)) args) := by
  induction fuel generalizing s p args container prev with
  | zero => omega
  | succ fuel ih =>
      rw [printLoop]
      rcases searchNextArg_spec inside with
        ⟨search, plain⟩ | ⟨k, type, search, le, short, fits, split⟩
      · have all : (format.chars.drop s).take (format.chars.length - s) = format.chars.drop s :=
          List.take_of_length_le (by rw [List.length_drop])
        have sent : output strings prev (pieces (format.chars.drop s)) args =
            some (format.chars.drop s) := by
          rw [plain, ← List.append_nil (List.map _ _), output_lits, output, Option.map_some,
            List.append_nil]
        rw [search, sent, outcome]
        simp only [Option.isSome_none, Bool.false_eq_true, if_false, ok_bind, Option.getD_none]
        rw [writeGen_format (by omega), all, ok_bind, if_neg (not_not_intro rfl)]
        rfl
      · have ne : k ≠ format.chars.length := Nat.ne_of_lt short
        have width : 2 ≤ type.width := by cases type <;> decide
        rw [search, split, output_lits, ← outcome_append, output]
        simp only [ok_bind, Option.isSome_some, Option.getD_some, if_true]
        cases found : loaded strings type prev args with
        | none =>
            rcases convert_fault carries found with stuck | ⟨run, stuck⟩
            · rw [stuck]
              rfl
            · rw [run, ok_bind, writeGen_format (by omega), ok_bind, if_pos ne, stuck]
              rfl
        | some pair =>
            obtain ⟨text, rest⟩ := pair
            obtain ⟨b, run, holds⟩ := convert_text carries found
            rw [run]
            simp only [ok_bind]
            rw [writeGen_format (by omega), ok_bind, if_pos ne, strlen_holds holds.1, ok_bind,
              writeGen_holds holds.1, ok_bind, ih fits (by omega) holds, outcome_append]
            simp only [Option.bind_eq_bind, Option.bind_some]
            cases output strings (some text) _ rest <;> rfl

/-! ## 3. A call -/

variable {lev : LogLevel} {appendLogLevel : Bool} {streams : Streams}

/-- What `arg_container` holds when the loop is entered. -/
def initialText (appendLogLevel : Bool) : Option (List Byte) :=
  if appendLogLevel then some [] else none

theorem levelString_short (lev : LogLevel) : (levelString lev).chars.length < 8 := by
  cases lev <;> decide

theorem printLevel_eq (lev : LogLevel) (target : LogTarget) (appendLogLevel : Bool) (p : Printed) :
    ∃ container,
      printLevel lev target appendLogLevel p =
        .ok (p.print (levelPrefix lev appendLogLevel) target, container) ∧
      Carries container (initialText appendLogLevel) := by
  cases appendLogLevel with
  | false =>
      have same : p.print [] target = p := by
        cases target <;> simp [Printed.print, Streams.send]
      exact ⟨.fresh 128, congrArg (fun q => Except.ok (q, _)) same.symm, rfl⟩
  | true =>
      obtain ⟨loglevel, copied, holds, -⟩ :=
        strcpy_holds (a := .fresh 8) (levelString_short lev)
      refine ⟨(LocalArray.fresh 128).put 0 0, ?_, holds_nil (by decide) rfl, rfl⟩
      rw [printLevel, if_pos rfl, createLogLevelString, copied, ok_bind, strlen_holds holds,
        ok_bind, writeGen_holds holds, ok_bind]
      rfl

/-- Everything that a call does. -/
theorem kprintfLevel_eq :
    kprintfLevel strings lev target appendLogLevel format args streams =
      outcome ⟨streams, 0⟩ target
        ((output strings (initialText appendLogLevel) (pieces format.chars) args).map
          (levelPrefix lev appendLogLevel ++ ·)) := by
  obtain ⟨container, level, carries⟩ := printLevel_eq lev target appendLogLevel ⟨streams, 0⟩
  rw [kprintfLevel, format.strlen_eq, ok_bind, level, ok_bind]
  dsimp only
  rw [printLoop_eq (Nat.zero_le _) (by omega) carries, outcome_append]
  rfl

/-! ## 4. Formatting -/

theorem output_eq_render {ps : List Piece} (noDouble : .double ∉ conversions ps)
    (each : args.length = (conversions ps).length)
    (fit : ∀ x ∈ (conversions ps).zip args, Fits strings x.1 x.2) :
    output strings prev ps args = some (render strings ps args) := by
  induction ps generalizing prev args with
  | nil => rfl
  | cons piece ps ih =>
      cases piece with
      | lit c =>
          rw [output, ih noDouble each fit]
          rfl
      | conv type =>
          obtain ⟨first, later⟩ := not_or.mp (mt List.mem_cons.mpr noDouble)
          cases args with
          | nil => cases each
          | cons a args =>
              have here : Fits strings type a := fit (type, a) List.mem_cons_self
              have tail : output strings (some (rendering strings type a)) ps args = _ :=
                ih later (Nat.succ.inj each) fun x member => fit x (List.mem_cons_of_mem _ member)
              rw [output, loaded_value (Ne.symm first), if_pos here, Option.bind_eq_bind,
                Option.bind_some]
              dsimp only
              rw [tail]
              rfl

/-- The call terminates. What it sends is the level and the format, with the text of each
argument in the place of its formatter, and it returns the number of characters. -/
theorem kprintf_formats (strings : Word → CString) (lev : LogLevel) (target : LogTarget)
    (appendLogLevel : Bool) (format : CString) (args : List Word) (streams : Streams)
    (noDouble : .double ∉ conversions (pieces format.chars))
    (each : args.length = (conversions (pieces format.chars)).length)
    (fit : ∀ x ∈ (conversions (pieces format.chars)).zip args, Fits strings x.1 x.2) :
    let sent := levelPrefix lev appendLogLevel ++ render strings (pieces format.chars) args
    ∃ r, kprintfLevel strings lev target appendLogLevel format args streams = .ok r ∧
      r.streams = streams.send sent target ∧ r.written = BitVec.ofNat 32 sent.length ∧
      (sent.length < 2 ^ 31 → r.written.toInt = sent.length) := by
  intro sent
  have written : (0 : Word) + BitVec.ofNat 32 sent.length = BitVec.ofNat 32 sent.length :=
    BitVec.zero_add _
  refine ⟨(Printed.mk streams 0).print sent target, ?_, rfl, written, fun small => ?_⟩
  · rw [kprintfLevel_eq, output_eq_render noDouble each fit]
    rfl
  · have number : (BitVec.ofNat 32 sent.length).toNat = sent.length := by
      rw [BitVec.toNat_ofNat]
      exact Nat.mod_eq_of_lt (by omega)
    show ((0 : Word) + BitVec.ofNat 32 sent.length).toInt = sent.length
    rw [written, BitVec.toInt_eq_toNat_of_lt (by omega), number]

/-- A call with adjacent formatters, a `%du`, an unknown letter and a `%` at the end. -/
theorem kprintf_formats_pids :
    let format : CString := ⟨"%s%c: %du, %x 100%".toList.map byte, by decide⟩
    let strings : Word → CString := fun _ => ⟨"pid".toList.map byte, by decide⟩
    ∃ r, kprintfLevel strings .warn .serialPort true format [0, 35, 7, 42] ⟨[], []⟩ = .ok r ∧
      r.streams.serial = "WARN pid#: 7, 42 100%".toList.map byte ∧ r.written = 21 := by
  intro format strings
  obtain ⟨r, run, sent, written, -⟩ := kprintf_formats strings .warn .serialPort true format
    [0, 35, 7, 42] ⟨[], []⟩ (by decide) (by decide) (by decide)
  refine ⟨r, run, ?_, ?_⟩
  · rw [sent]
    rfl
  · rw [written]
    rfl

/-! ## 5. The arrays -/

/-- Every string argument fits, and the first formatter is a `%f` only where the level has
been sent, because the array holds a string then. -/
def InBounds (strings : Word → CString) (prev : Option (List Byte)) (ps : List Piece)
    (args : List Word) : Prop :=
  (∀ x ∈ (valued ps).zip args, Fits strings x.1 x.2) ∧
    (prev.isSome ∨ (conversions ps).head? ≠ some .double)

variable {ps : List Piece}

theorem inBounds_some :
    InBounds strings (some text) ps args ↔ ∀ x ∈ (valued ps).zip args, Fits strings x.1 x.2 :=
  and_iff_left (.inl rfl)

theorem valued_cons (value : type ≠ .double) :
    valued (.conv type :: ps) = type :: valued ps := by
  rw [valued, conversions]
  exact List.filter_cons_of_pos (decide_eq_true value)

/-- An argument that is converted has to fit, and then the array holds a string. -/
theorem inBounds_cons {a : Word} (text : List Byte) (value : type ≠ .double) :
    InBounds strings prev (.conv type :: ps) (a :: args) ↔
      Fits strings type a ∧ InBounds strings (some text) ps args := by
  have first : (conversions (.conv type :: ps)).head? ≠ some .double := fun same =>
    value (Option.some.inj same)
  rw [inBounds_some, InBounds, and_iff_left (.inr first), valued_cons value, List.zip_cons_cons,
    List.forall_mem_cons]

theorem inBounds_double :
    InBounds strings prev (.conv .double :: ps) args ↔
      ∃ text, prev = some text ∧ InBounds strings (some text) ps args := by
  cases prev with
  | none =>
      constructor
      · rintro ⟨-, written | first⟩
        · cases written
        · exact absurd rfl first
      · rintro ⟨_, absent, -⟩
        cases absent
  | some text =>
      rw [inBounds_some]
      exact ⟨fun fit => ⟨text, rfl, inBounds_some.mpr fit⟩, fun ⟨_, _, fit⟩ => fit.1⟩

theorem output_conv_isSome :
    (output strings prev (.conv type :: ps) args).isSome ↔ ∃ text rest,
      loaded strings type prev args = some (text, rest) ∧
        (output strings (some text) ps rest).isSome := by
  rw [output]
  cases loaded strings type prev args with
  | none => exact ⟨fun found => Bool.noConfusion found, fun ⟨_, _, found, _⟩ => by cases found⟩
  | some pair =>
      obtain ⟨text, rest⟩ := pair
      rw [Option.bind_eq_bind, Option.bind_some]
      constructor
      · intro found
        refine ⟨text, rest, rfl, ?_⟩
        dsimp only at found
        cases sent : output strings (some text) ps rest with
        | none =>
            rw [sent] at found
            exact Bool.noConfusion found
        | some more => rfl
      · rintro ⟨text', rest', same, found⟩
        cases same
        obtain ⟨more, sent⟩ := Option.isSome_iff_exists.mp found
        dsimp only
        rw [sent]
        rfl

theorem output_isSome_iff (enough : (valued ps).length ≤ args.length) :
    (output strings prev ps args).isSome ↔ InBounds strings prev ps args := by
  induction ps generalizing prev args with
  | nil =>
      refine ⟨fun _ => ⟨fun x member => ?_, .inr (Option.some_ne_none _).symm⟩, fun _ => rfl⟩
      cases member
  | cons piece ps ih =>
      cases piece with
      | lit c =>
          rw [output, Option.isSome_map]
          exact ih enough
      | conv type =>
          rw [output_conv_isSome]
          rcases eq_or_ne type .double with rfl | value
          · rw [inBounds_double, loaded_double]
            constructor
            · rintro ⟨text, rest, same, found⟩
              obtain ⟨_, written, pair⟩ := Option.map_eq_some_iff.mp same
              cases pair
              exact ⟨text, written, (ih enough).mp found⟩
            · rintro ⟨text, rfl, fit⟩
              exact ⟨text, args, rfl, (ih enough).mpr fit⟩
          · rw [valued_cons value] at enough
            cases args with
            | nil => cases enough
            | cons a args =>
                have enough' : (valued ps).length ≤ args.length := Nat.le_of_succ_le_succ enough
                rw [inBounds_cons (rendering strings type a) value, loaded_value value]
                constructor
                · rintro ⟨text, rest, same, found⟩
                  split at same
                  · rename_i fits
                    cases same
                    exact ⟨fits, (ih enough').mp found⟩
                  · cases same
                · rintro ⟨fits, fit⟩
                  exact ⟨_, args, if_pos fits, (ih enough').mpr fit⟩

/-- With an argument for each formatter that takes one, the call stays inside its arrays,
and reads only what it has written, in exactly these cases. -/
theorem kprintf_in_bounds_iff (strings : Word → CString) (lev : LogLevel) (target : LogTarget)
    (appendLogLevel : Bool) (format : CString) (args : List Word) (streams : Streams)
    (enough : (valued (pieces format.chars)).length ≤ args.length) :
    (∃ r, kprintfLevel strings lev target appendLogLevel format args streams = .ok r) ↔
      (∀ x ∈ (valued (pieces format.chars)).zip args, Fits strings x.1 x.2) ∧
      (appendLogLevel = true ∨ (conversions (pieces format.chars)).head? ≠ some .double) := by
  have level : (initialText appendLogLevel).isSome = true ↔ appendLogLevel = true := by
    cases appendLogLevel <;> decide
  have exactly : (output strings (initialText appendLogLevel) (pieces format.chars) args).isSome ↔
      _ := output_isSome_iff enough
  rw [InBounds, level] at exactly
  rw [← exactly, kprintfLevel_eq]
  cases output strings (initialText appendLogLevel) (pieces format.chars) args with
  | none =>
      constructor
      · rintro ⟨_, run⟩
        cases run
      · exact fun found => Bool.noConfusion found
  | some text => exact ⟨fun _ => rfl, fun _ => ⟨_, rfl⟩⟩

theorem kprintf_in_bounds_iff_level :
    let format : CString := ⟨"%f of %s".toList.map byte, by decide⟩
    let strings : Word → CString := fun _ => ⟨"pid".toList.map byte, by decide⟩
    ∃ r, kprintfLevel strings .info .frameBuffer true format [0] ⟨[], []⟩ = .ok r := by
  intro format strings
  exact (kprintf_in_bounds_iff strings .info .frameBuffer true format [0] ⟨[], []⟩
    (by decide)).mpr (by decide)

/-- A string of 128 characters goes beyond the end of `arg_container`, and a `%f` at the
start is printed from an array that nothing has been written to. -/
theorem kprintf_leaves_array :
    let long : CString := ⟨List.replicate 128 (byte 'a'), by simp [byte]⟩
    kprintfLevel (fun _ => long) .info .frameBuffer false ⟨"%s".toList.map byte, by decide⟩ [0]
        ⟨[], []⟩ = .error .outOfBounds ∧
      kprintfLevel (fun _ => long) .info .frameBuffer false ⟨"%f".toList.map byte, by decide⟩ []
        ⟨[], []⟩ = .error .outOfBounds := by
  intro long
  have overflow : ¬ Fits (fun _ => long) .string 0 := by simp [Fits, long]
  constructor
  · have one : pieces ("%s".toList.map byte) = [.conv .string] := by decide
    rw [kprintfLevel_eq, one, output, loaded_value (by decide), if_neg overflow]
    rfl
  · rw [kprintfLevel_eq]
    rfl

end Bodos
