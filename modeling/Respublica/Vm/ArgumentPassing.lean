import Respublica.Vm.HostApi

/-!
# Arguments of a program

A program asks with `args_sizes_get` how many arguments there are and how many bytes they have, and
has them copied with `args_get` to a table of pointers and a buffer. The table is filled with
offsets by the host interface and relocated by the program context.

The index of the table is never increased. All offsets go to its first entry, and as the index is
also the number of entries to relocate, none is. Of either buffer only the first element is checked
to be in the memory.

Metering is left to `ProgramContext`: a call that cannot be paid for traps before it writes.
-/

namespace Respublica.Vm

open Foundation Effect Program Region HostApi Interaction

/-- `program_context::wasi_args_get` for the given arguments. There is no memory to return when the
call traps. -/
def wasiArgsGet (arguments : List Bytes) (memory : Option Bytes) (argv argvBuf : UInt32) :
    Except MemoryFault (Option Bytes) :=
  match twoPointers memory argv 4 argvBuf 1 with
  | some (data, argvPtr, argvBufPtr) =>
    some <$> passArguments arguments argvPtr argvBufPtr argvBuf data
  | none => .ok none

/-- `program_context::wasi_args_sizes_get` for the given arguments. -/
def wasiArgsSizesGet (arguments : List Bytes) (memory : Option Bytes) (argc argvBufSize : UInt32) :
    Except MemoryFault (Option Bytes) :=
  match twoPointers memory argc 4 argvBufSize 4 with
  | some (data, argcPtr, sizePtr) => some <$> reportArguments arguments argcPtr sizePtr data
  | none => .ok none

/-! Both are what a module is served -/

section Served

variable {State : Type} {handler : (request : HostCall) →
    Effect StateDb.Fault State request.Response}
  {before asked : State} {arguments : List Bytes} {memory : Option Bytes}

/-- An imported function that is served with a result: it traps before the host is called, or
succeeds with the memory it leaves, or leaves the memory. -/
def ServedWith (handler : (request : HostCall) → Effect StateDb.Fault State request.Response)
    (before after : State) (function : HostFunction) (memory : Option Bytes) :
    Except MemoryFault (Option Bytes) → Prop
  | .ok none => resolve memory function = .ok none
  | .ok (some data) => ∃ body, resolve memory function = .ok (some body) ∧
      (interpret handler body).Returns before (.wasi .success, some data) after
  | .error .outside => ∃ body, resolve memory function = .ok (some body) ∧
      (interpret handler body).Stops before .outOfBounds after

/-- A function that asks for the arguments and works on the memory of the instance. -/
theorem servedWith_work {function : HostFunction} (work : List Bytes → Except MemoryFault Bytes)
    (asks : (handler .arguments).Returns before arguments asked)
    (resolved : resolve memory function = .ok (some (onData do
      let arguments ← call .arguments
      let data ← touch (work arguments)
      pure (.wasi .success, data)))) :
    ServedWith handler before asked function memory (some <$> work arguments) := by
  cases worked : work arguments with
  | error fault =>
    cases fault
    refine ⟨_, resolved, ?_⟩
    rw [onData, interpret_bind, interpret_bind, call, interpret_perform]
    refine stops_bind.mpr (.inl (stops_bind.mpr (.inr ⟨_, _, asks, ?_⟩)))
    rw [worked]
    rfl
  | ok data =>
    refine ⟨_, resolved, ?_⟩
    rw [onData, interpret_bind, interpret_bind, call, interpret_perform]
    refine returns_bind.mpr ⟨(.wasi .success, data), asked, ?_, rfl⟩
    refine returns_bind.mpr ⟨_, _, asks, ?_⟩
    rw [worked]
    rfl

variable {argv argvBuf argc argvBufSize : UInt32}

/-- The copying of arguments is what a module is served with. -/
theorem wasiArgsGet_served (asks : (handler .arguments).Returns before arguments asked) :
    ServedWith handler before asked (.wasiArgsGet argv argvBuf) memory
      (wasiArgsGet arguments memory argv argvBuf) := by
  rw [wasiArgsGet]
  split
  · rename_i found
    refine servedWith_work (passArguments · _ _ argvBuf _) asks ?_
    rw [resolve, found]
    rfl
  · rename_i bad
    rw [ServedWith, resolve, bad]
    rfl

/-- The sizes of the arguments are what a module is served with. -/
theorem wasiArgsSizesGet_served (asks : (handler .arguments).Returns before arguments asked) :
    ServedWith handler before asked (.wasiArgsSizesGet argc argvBufSize) memory
      (wasiArgsSizesGet arguments memory argc argvBufSize) := by
  rw [wasiArgsSizesGet]
  split
  · rename_i found
    refine servedWith_work (reportArguments · _ _ _) asks ?_
    rw [resolve, found]
    rfl
  · rename_i bad
    rw [ServedWith, resolve, bad]
    rfl

end Served

section Copying

variable {argv argvBuf : Nat}

variable {first data : Bytes} {counter : UInt32}

/-- One argument is copied, and its offset is stored in the one cell. -/
theorem copyArguments_cons (rest : List Bytes) (cell : argv + 4 ≤ data.length)
    (buffer : argvBuf + counter.toNat + first.length ≤ data.length) :
    copyArguments argv argvBuf 0 (first :: rest) counter data =
      copyArguments argv argvBuf 0 rest (counter + UInt32.ofNat first.length)
        (patch (patch data argv (littleEndian 4 counter.toNat))
          (argvBuf + counter.toNat) first) := by
  have width : argv + (littleEndian 4 counter.toNat).length ≤ data.length := by
    rwa [length_littleEndian]
  have stored : storeWord32 data (argv + 4 * 0) counter =
      .ok (patch data argv (littleEndian 4 counter.toNat)) := copyTo_inside width
  have copied : copyTo (patch data argv (littleEndian 4 counter.toNat)) (argvBuf + counter.toNat)
      first = .ok _ := copyTo_inside (by rwa [length_patch width])
  rw [copyArguments, stored]
  simp only [bind, Except.bind, copied]

/-- An argument for which there is no room is copied over the end of the memory. -/
theorem copyArguments_outside (rest : List Bytes) (cell : argv + 4 ≤ data.length)
    (present : first.length ≠ 0)
    (outside : data.length < argvBuf + counter.toNat + first.length) :
    copyArguments argv argvBuf 0 (first :: rest) counter data = .error .outside := by
  obtain ⟨stored, storing, width, -, -⟩ := storeWord32_inside counter cell
  have storing : storeWord32 data (argv + 4 * 0) counter = .ok stored := storing
  have copying : copyTo stored (argvBuf + counter.toNat) first = .error .outside := by
    refine if_neg ?_
    rintro (empty | fits)
    · exact present empty
    · omega
  rw [copyArguments, storing]
  simp only [bind, Except.bind, copying]

/-- The last offset and all arguments, one behind the other, are what is written. -/
theorem copyArguments_eq {rest : List Bytes}
    (small : counter.toNat + (first :: rest).flatten.length < 2 ^ 32)
    (cell : argv + 4 ≤ data.length)
    (buffer : argvBuf + counter.toNat + (first :: rest).flatten.length ≤ data.length)
    (apart : Apart argv 4 (argvBuf + counter.toNat) (first :: rest).flatten.length) :
    copyArguments argv argvBuf 0 (first :: rest) counter data =
      .ok (patch (patch data argv
          (littleEndian 4 (counter.toNat + (first :: rest).dropLast.flatten.length)))
        (argvBuf + counter.toNat) (first :: rest).flatten) := by
  induction rest generalizing first counter data with
  | nil =>
    rw [copyArguments_cons [] cell (by simpa using buffer)]
    simp [copyArguments]
  | cons second rest ih =>
    rw [List.flatten_cons, List.length_append] at small buffer apart
    have advanced : (counter + UInt32.ofNat first.length).toNat =
        counter.toNat + first.length := by
      rw [UInt32.toNat_add, UInt32.toNat_ofNat']
      omega
    have word (value : Nat) : (littleEndian 4 value).length = 4 := length_littleEndian 4 value
    have width : (patch (patch data argv (littleEndian 4 counter.toNat))
        (argvBuf + counter.toNat) first).length = data.length := by
      have stored : (patch data argv (littleEndian 4 counter.toNat)).length = data.length :=
        length_patch (by rwa [word])
      rw [length_patch (by omega), stored]
    have offset : counter.toNat + first.length + (second :: rest).dropLast.flatten.length =
        counter.toNat + (first :: second :: rest).dropLast.flatten.length := by
      rw [List.dropLast_cons_of_ne_nil (List.cons_ne_nil second rest), List.flatten_cons,
        List.length_append, Nat.add_assoc]
    rw [copyArguments_cons (second :: rest) cell (by omega),
      ih (by omega) (by omega) (by omega) (by rw [Apart] at apart ⊢; omega), advanced, offset,
      ← Nat.add_assoc, patch_beside (by rw [word, word]) (by rwa [word]) (by omega)
        (by rwa [word])]
    rfl

end Copying

/-! The two calls -/

section Calls

variable {arguments : List Bytes} {data : Bytes} {argv argvBuf : UInt32}

/-- Pointers outside the memory are none. -/
theorem twoPointers_outside {first firstSize second secondSize : UInt32}
    (outside : data.length < first.toNat + firstSize.toNat ∨
      data.length < second.toNat + secondSize.toNat) :
    twoPointers (some data) first firstSize second secondSize = none := by
  rw [twoPointers, onePointer]
  rcases outside with bad | bad
  · have pointer : nativePointer (some data) first firstSize = none := if_pos bad
    rw [pointer]
    rfl
  · have pointer : nativePointer (some data) second secondSize = none := if_pos bad
    rw [pointer]
    cases nativePointer (some data) first firstSize <;> rfl

/-- Pointers inside the memory are addresses. -/
theorem twoPointers_inside {first firstSize second secondSize : UInt32}
    (firstInside : first.toNat + firstSize.toNat ≤ data.length)
    (secondInside : second.toNat + secondSize.toNat ≤ data.length) :
    twoPointers (some data) first firstSize second secondSize =
      some (data, first.toNat, second.toNat) := by
  rw [twoPointers, onePointer, nativePointer_eq_some_iff.mpr ⟨firstInside, rfl⟩,
    nativePointer_eq_some_iff.mpr ⟨secondInside, rfl⟩]
  rfl

/-- Without room for a word and a byte the call traps. -/
theorem wasiArgsGet_trapped
    (outside : data.length < argv.toNat + 4 ∨ data.length < argvBuf.toNat + 1) :
    wasiArgsGet arguments (some data) argv argvBuf = .ok none := by
  rw [wasiArgsGet, twoPointers_outside outside]

/-- No entry is relocated. -/
theorem wasiArgsGet_checked (table : argv.toNat + 4 ≤ data.length)
    (buffer : argvBuf.toNat + 1 ≤ data.length) :
    wasiArgsGet arguments (some data) argv argvBuf =
      (copyArguments argv.toNat argvBuf.toNat 0 arguments 0 data).map some := by
  have places : twoPointers (some data) argv 4 argvBuf 1 = some (data, argv.toNat, argvBuf.toNat) :=
    twoPointers_inside table buffer
  simp only [wasiArgsGet, places, passArguments, argsGet]
  cases copyArguments argv.toNat argvBuf.toNat 0 arguments 0 data <;> rfl

/-- The sizes are added up in a word. -/
theorem addSizes_spec (arguments : List Bytes) {address : Nat}
    (inside : address + 4 ≤ data.length) :
    ∃ after, addSizes address arguments data = .ok after ∧ after.length = data.length ∧
      wordAt after address = wordAt data address + UInt32.ofNat arguments.flatten.length ∧
      ∀ position, position < address ∨ address + 4 ≤ position →
        after[position]? = data[position]? := by
  induction arguments generalizing data with
  | nil => exact ⟨data, rfl, rfl, by simp, fun _ _ => rfl⟩
  | cons argument rest ih =>
    obtain ⟨next, stored, width, bytes, others⟩ := storeWord32_inside
      (wordAt data address + UInt32.ofNat argument.length) inside
    obtain ⟨after, added, widthAfter, total, othersAfter⟩ :=
      ih (show address + 4 ≤ next.length by omega)
    refine ⟨after, ?_, widthAfter.trans width, ?_, fun position elsewhere => ?_⟩
    · rw [addSizes, loadWord32_inside inside]
      simp only [bind, Except.bind, stored, added]
    · rw [total, wordAt_eq_of_slice bytes, List.flatten_cons, List.length_append,
        UInt32.ofNat_add, UInt32.add_assoc]
    · rw [othersAfter position elsewhere, others position elsewhere]

/-- What `args_sizes_get` reports: the two words, when they are apart. -/
def Reported (arguments : List Bytes) (argc size : UInt32) : Prop :=
  ∃ (data after : Bytes) (argcPtr sizePtr : UInt32), Apart argcPtr.toNat 4 sizePtr.toNat 4 ∧
    wasiArgsSizesGet arguments (some data) argcPtr sizePtr = .ok (some after) ∧
    wordAt after argcPtr.toNat = argc ∧ wordAt after sizePtr.toNat = size

variable {argcPtr sizePtr : UInt32}

theorem wasiArgsSizesGet_trapped
    (outside : data.length < argcPtr.toNat + 4 ∨ data.length < sizePtr.toNat + 4) :
    wasiArgsSizesGet arguments (some data) argcPtr sizePtr = .ok none := by
  rw [wasiArgsSizesGet, twoPointers_outside outside]

/-- The sizes reported are the number of the arguments and their length. -/
theorem wasiArgsSizesGet_spec (arguments : List Bytes)
    (argcInside : argcPtr.toNat + 4 ≤ data.length) (sizeInside : sizePtr.toNat + 4 ≤ data.length)
    (apart : Apart argcPtr.toNat 4 sizePtr.toNat 4) :
    ∃ after, wasiArgsSizesGet arguments (some data) argcPtr sizePtr = .ok (some after) ∧
      wordAt after argcPtr.toNat = UInt32.ofNat arguments.length ∧
      wordAt after sizePtr.toNat = UInt32.ofNat arguments.flatten.length := by
  obtain ⟨counted, storedCount, widthCount, count, -⟩ :=
    storeWord32_inside (UInt32.ofNat arguments.length) argcInside
  obtain ⟨cleared, storedZero, widthZero, zero, othersZero⟩ :=
    storeWord32_inside 0 (show sizePtr.toNat + 4 ≤ counted.length by omega)
  obtain ⟨after, added, -, total, others⟩ := addSizes_spec arguments
    (show sizePtr.toNat + 4 ≤ cleared.length by omega)
  have places : twoPointers (some data) argcPtr 4 sizePtr 4 =
      some (data, argcPtr.toNat, sizePtr.toNat) := twoPointers_inside argcInside sizeInside
  refine ⟨after, ?_, ?_, ?_⟩
  · simp only [wasiArgsSizesGet, places, reportArguments, storedCount, storedZero, added, bind,
      Except.bind]
    rfl
  · rw [wordAt, storeWord32_apart others apart, storeWord32_apart othersZero apart, ← wordAt,
      wordAt_eq_of_slice count]
  · rw [total, wordAt_eq_of_slice zero, UInt32.zero_add]

/-- A memory of one page with nothing in it. -/
def page : Bytes := List.replicate 65536 0

theorem inside_page {position : Nat} (inside : position ≤ 65536) : position ≤ page.length := by
  rwa [page, List.length_replicate]

/-- Without exception the two words tell the number and the size of the arguments. -/
theorem reported_iff {argc size : UInt32} :
    Reported arguments argc size ↔
      argc = UInt32.ofNat arguments.length ∧ size = UInt32.ofNat arguments.flatten.length := by
  constructor
  · rintro ⟨data, after, argcPtr, sizePtr, apart, gave, rfl, rfl⟩
    by_cases inside : argcPtr.toNat + 4 ≤ data.length ∧ sizePtr.toNat + 4 ≤ data.length
    · obtain ⟨same, again, count, total⟩ := wasiArgsSizesGet_spec arguments inside.1 inside.2 apart
      cases again.symm.trans gave
      exact ⟨count, total⟩
    · rw [wasiArgsSizesGet_trapped (by omega)] at gave
      cases gave
  · rintro ⟨rfl, rfl⟩
    have argcInside : (0 : UInt32).toNat + 4 ≤ page.length := inside_page (by decide)
    have sizeInside : (4 : UInt32).toNat + 4 ≤ page.length := inside_page (by decide)
    have apart : Apart (0 : UInt32).toNat 4 (4 : UInt32).toNat 4 := .inl (by decide)
    obtain ⟨after, gave, count, total⟩ :=
      wasiArgsSizesGet_spec arguments argcInside sizeInside apart
    exact ⟨_, after, 0, 4, apart, gave, count, total⟩

/-- The table of pointers and the buffer lie in the memory. -/
def BuffersFit (data : Bytes) (argv argvBuf argc size : UInt32) : Prop :=
  argv.toNat + 4 * argc.toNat ≤ data.length ∧ argvBuf.toNat + size.toNat ≤ data.length

/-- Where an argument starts among all of them. -/
def offsetOf (arguments : List Bytes) (index : Nat) : Nat := (arguments.take index).flatten.length

/-- All arguments are in the buffer, the table points to them, and nothing else was written. -/
structure Passed (arguments : List Bytes) (data after : Bytes) (argv argvBuf argc size : UInt32) :
    Prop where
  count : argc.toNat = arguments.length
  pointers : ∀ index < arguments.length,
    (wordAt after (argv.toNat + 4 * index)).toNat = argvBuf.toNat + offsetOf arguments index
  inside : ∀ index < arguments.length, offsetOf arguments (index + 1) ≤ size.toNat
  contents : ∀ index (bound : index < arguments.length),
    slice after (argvBuf.toNat + offsetOf arguments index) arguments[index].length =
      arguments[index]
  others : ∀ position, position < argv.toNat ∨ argv.toNat + 4 * argc.toNat ≤ position →
    position < argvBuf.toNat ∨ argvBuf.toNat + size.toNat ≤ position →
      after[position]? = data[position]?

/-- What passing arguments is to do. -/
structure ArgumentLaw (arguments : List Bytes) (data : Bytes) (argv argvBuf : UInt32) : Prop where
  passes : ∀ argc size, Reported arguments argc size → BuffersFit data argv argvBuf argc size →
    Apart argv.toNat (4 * argc.toNat) argvBuf.toNat size.toNat →
      ∃ after, wasiArgsGet arguments (some data) argv argvBuf = .ok (some after) ∧
        Passed arguments data after argv argvBuf argc size
  traps : ∀ argc size, Reported arguments argc size → ¬ BuffersFit data argv argvBuf argc size →
    wasiArgsGet arguments (some data) argv argvBuf = .ok none

/-- The number and the size of the arguments are what 32 bits can tell, the first pointer and the
first byte are in the memory, the buffer happens to be at the offset of the last argument, and all
entries of the table but the first are right before the call. -/
structure Fortunate (arguments : List Bytes) (data : Bytes) (argv argvBuf : UInt32) : Prop where
  number : arguments.length < 2 ^ 32
  size : arguments.flatten.length < 2 ^ 32
  table : argv.toNat + 4 ≤ data.length
  buffer : argvBuf.toNat + 1 ≤ data.length
  first : arguments ≠ [] → argvBuf.toNat = arguments.dropLast.flatten.length
  others : ∀ index, 0 < index → index < arguments.length →
    (wordAt data (argv.toNat + 4 * index)).toNat = argvBuf.toNat + offsetOf arguments index

/-- The arguments lie one behind the other. -/
theorem slice_flatten (arguments : List Bytes) (index : Nat) (bound : index < arguments.length) :
    slice arguments.flatten (offsetOf arguments index) arguments[index].length =
        arguments[index] ∧
      offsetOf arguments (index + 1) = offsetOf arguments index + arguments[index].length ∧
      offsetOf arguments (index + 1) ≤ arguments.flatten.length := by
  have next : arguments.take (index + 1) = arguments.take index ++ [arguments[index]] :=
    (List.take_concat_get' arguments index bound).symm
  have whole : arguments.flatten = (arguments.take index).flatten ++ (arguments[index] ++
      (arguments.drop (index + 1)).flatten) := by
    rw [← List.append_assoc, ← List.flatten_concat, ← next, ← List.flatten_append,
      List.take_append_drop]
  have step : offsetOf arguments (index + 1) =
      offsetOf arguments index + arguments[index].length := by
    rw [offsetOf, next, List.flatten_concat, List.length_append, offsetOf]
  refine ⟨?_, step, ?_⟩
  · rw [whole, slice, offsetOf, List.drop_left, List.take_left]
  · rw [step, whole, List.length_append, List.length_append, offsetOf]
    omega

/-- The memory after arguments were copied. -/
def copied (arguments : List Bytes) (data : Bytes) (argv argvBuf : UInt32) : Bytes :=
  patch (patch data argv.toNat (littleEndian 4 arguments.dropLast.flatten.length)) argvBuf.toNat
    arguments.flatten

/-- With room for them the arguments are copied. -/
theorem wasiArgsGet_copied (present : arguments ≠ []) (small : arguments.flatten.length < 2 ^ 32)
    (table : argv.toNat + 4 ≤ data.length) (buffer : argvBuf.toNat + 1 ≤ data.length)
    (fits : argvBuf.toNat + arguments.flatten.length ≤ data.length)
    (apart : Apart argv.toNat 4 argvBuf.toNat arguments.flatten.length) :
    wasiArgsGet arguments (some data) argv argvBuf =
      .ok (some (copied arguments data argv argvBuf)) := by
  obtain ⟨first, rest, rfl⟩ := List.exists_cons_of_ne_nil present
  have zero : (0 : UInt32).toNat = 0 := rfl
  have copies : copyArguments argv.toNat argvBuf.toNat 0 (first :: rest) 0 data = _ :=
    copyArguments_eq (by rwa [zero, Nat.zero_add]) table (by rwa [zero]) (by rwa [zero])
  rw [wasiArgsGet_checked table buffer, copies, zero, Nat.zero_add]
  rfl

theorem length_stored (value : Nat) (table : argv.toNat + 4 ≤ data.length) :
    argv.toNat + (littleEndian 4 value).length ≤ data.length ∧
      (patch data argv.toNat (littleEndian 4 value)).length = data.length := by
  have inside : argv.toNat + (littleEndian 4 value).length ≤ data.length := by
    rwa [length_littleEndian]
  exact ⟨inside, length_patch inside⟩

section Copied

variable (table : argv.toNat + 4 ≤ data.length)
  (fits : argvBuf.toNat + arguments.flatten.length ≤ data.length)
include table fits

/-- Beside the cell and the buffer nothing is changed. -/
theorem getElem?_copied {position : Nat}
    (beside : position < argv.toNat ∨ argv.toNat + 4 ≤ position)
    (outside : position < argvBuf.toNat ∨ argvBuf.toNat + arguments.flatten.length ≤ position) :
    (copied arguments data argv argvBuf)[position]? = data[position]? := by
  obtain ⟨stored, width⟩ := length_stored arguments.dropLast.flatten.length table
  rw [copied, getElem?_patch (by rwa [width]) outside, getElem?_patch stored]
  rwa [length_littleEndian]

/-- The first entry is the offset of the last argument, without the address of the buffer. -/
theorem wordAt_copied (apart : Apart argv.toNat 4 argvBuf.toNat arguments.flatten.length)
    (small : arguments.flatten.length < 2 ^ 32) :
    (wordAt (copied arguments data argv argvBuf) argv.toNat).toNat =
      arguments.dropLast.flatten.length := by
  obtain ⟨stored, width⟩ := length_stored arguments.dropLast.flatten.length table
  have shorter : arguments.dropLast.flatten.length ≤ arguments.flatten.length :=
    ((List.dropLast_sublist arguments).flatten).length_le
  have cell : slice (copied arguments data argv argvBuf) argv.toNat 4 =
      littleEndian 4 arguments.dropLast.flatten.length := by
    rw [copied, slice_patch_of_apart (by rwa [width])]
    · exact slice_patch stored
    · rw [Apart] at apart ⊢
      omega
  rw [wordAt, cell, fromLittleEndian_littleEndian (by omega), UInt32.toNat_ofNat']
  omega

/-- Every argument is copied to its place. -/
theorem slice_copied {index : Nat} (bound : index < arguments.length) :
    slice (copied arguments data argv argvBuf) (argvBuf.toNat + offsetOf arguments index)
      arguments[index].length = arguments[index] := by
  obtain ⟨contents, step, inside⟩ := slice_flatten arguments index bound
  obtain ⟨-, width⟩ := length_stored arguments.dropLast.flatten.length table
  rw [copied, slice_patch_within (by rwa [width]) (by omega), contents]

end Copied

/-- With room for everything, arguments are passed exactly when they are by accident. -/
theorem passed_copied_iff (present : arguments ≠ []) (number : arguments.length < 2 ^ 32)
    (small : arguments.flatten.length < 2 ^ 32)
    (fits : BuffersFit data argv argvBuf (UInt32.ofNat arguments.length)
      (UInt32.ofNat arguments.flatten.length))
    (apart : Apart argv.toNat (4 * (UInt32.ofNat arguments.length).toNat) argvBuf.toNat
      (UInt32.ofNat arguments.flatten.length).toNat) :
    Passed arguments data (copied arguments data argv argvBuf) argv argvBuf
        (UInt32.ofNat arguments.length) (UInt32.ofNat arguments.flatten.length) ↔
      argvBuf.toNat = arguments.dropLast.flatten.length ∧
        ∀ index, 0 < index → index < arguments.length →
          (wordAt data (argv.toNat + 4 * index)).toNat =
            argvBuf.toNat + offsetOf arguments index := by
  have argc : (UInt32.ofNat arguments.length).toNat = arguments.length := Nat.mod_eq_of_lt number
  have size : (UInt32.ofNat arguments.flatten.length).toNat = arguments.flatten.length :=
    Nat.mod_eq_of_lt small
  have some := List.length_pos_iff.mpr present
  rw [BuffersFit, argc, size] at fits
  rw [argc, size, Apart] at apart
  have table : argv.toNat + 4 ≤ data.length := by omega
  have cell := wordAt_copied table fits.2 (by rw [Apart]; omega) small
  -- The other entries of the table are as they were.
  have entry {index : Nat} (later : 0 < index) (bound : index < arguments.length) :
      wordAt (copied arguments data argv argvBuf) (argv.toNat + 4 * index) =
        wordAt data (argv.toNat + 4 * index) :=
    wordAt_congr fun offset inside => getElem?_copied table fits.2 (by omega) (by omega)
  constructor
  · intro passed
    refine ⟨?_, fun index later bound => ?_⟩
    · have first := passed.pointers 0 some
      rw [Nat.mul_zero, Nat.add_zero, cell] at first
      exact first.symm
    · rw [← entry later bound]
      exact passed.pointers index bound
  · rintro ⟨first, others⟩
    refine ⟨argc, fun index bound => ?_, fun index bound => ?_, fun index bound => ?_, ?_⟩
    · rcases Nat.eq_zero_or_pos index with rfl | later
      · rw [Nat.mul_zero, Nat.add_zero, cell, first]
        rfl
      · rw [entry later bound]
        exact others index later bound
    · rw [size]
      exact (slice_flatten arguments index bound).2.2
    · exact slice_copied table fits.2 bound
    · intro position beside outside
      rw [argc] at beside
      rw [size] at outside
      exact getElem?_copied table fits.2 (by omega) outside

/-- With room for a word and a byte the call does not trap. -/
theorem wasiArgsGet_ne_none (table : argv.toNat + 4 ≤ data.length)
    (buffer : argvBuf.toNat + 1 ≤ data.length) :
    wasiArgsGet arguments (some data) argv argvBuf ≠ .ok none := by
  rw [wasiArgsGet_checked table buffer]
  cases copyArguments argv.toNat argvBuf.toNat 0 arguments 0 data with
  | error fault => rintro ⟨⟩
  | ok after => rintro ⟨⟩

section Room

variable
  (fits : BuffersFit data argv argvBuf (UInt32.ofNat arguments.length)
    (UInt32.ofNat arguments.flatten.length))
  (apart : Apart argv.toNat (4 * (UInt32.ofNat arguments.length).toNat) argvBuf.toNat
    (UInt32.ofNat arguments.flatten.length).toNat)
include fits apart

theorem wasiArgsGet_of_room (present : arguments ≠ []) (number : arguments.length < 2 ^ 32)
    (small : arguments.flatten.length < 2 ^ 32) (table : argv.toNat + 4 ≤ data.length)
    (buffer : argvBuf.toNat + 1 ≤ data.length) :
    wasiArgsGet arguments (some data) argv argvBuf =
      .ok (some (copied arguments data argv argvBuf)) := by
  have argc : (UInt32.ofNat arguments.length).toNat = arguments.length := Nat.mod_eq_of_lt number
  have size : (UInt32.ofNat arguments.flatten.length).toNat = arguments.flatten.length :=
    Nat.mod_eq_of_lt small
  have some := List.length_pos_iff.mpr present
  rw [BuffersFit, argc, size] at fits
  rw [argc, size, Apart] at apart
  exact wasiArgsGet_copied present small table buffer fits.2 (by rw [Apart]; omega)

/-- Arguments are passed by good fortune only. -/
theorem fortunate_of_passed {after : Bytes}
    (gave : wasiArgsGet arguments (some data) argv argvBuf = .ok (some after))
    (passed : Passed arguments data after argv argvBuf (UInt32.ofNat arguments.length)
      (UInt32.ofNat arguments.flatten.length)) : Fortunate arguments data argv argvBuf := by
  have inside : ¬ (data.length < argv.toNat + 4 ∨ data.length < argvBuf.toNat + 1) := by
    intro outside
    rw [wasiArgsGet_trapped outside] at gave
    cases gave
  have number : arguments.length < 2 ^ 32 := by
    have count : arguments.length % 2 ^ 32 = arguments.length := passed.count
    omega
  by_cases present : arguments = []
  · subst present
    exact ⟨number, by decide, by omega, by omega, fun absent => absurd rfl absent,
      fun index _ bound => absurd bound (Nat.not_lt_zero index)⟩
  · have some := List.length_pos_iff.mpr present
    have small : arguments.flatten.length < 2 ^ 32 := by
      have whole : offsetOf arguments (arguments.length - 1 + 1) ≤
          arguments.flatten.length % 2 ^ 32 := passed.inside _ (by omega)
      rw [Nat.sub_add_cancel some, offsetOf, List.take_length] at whole
      omega
    rw [wasiArgsGet_of_room fits apart present number small (by omega) (by omega)] at gave
    cases gave
    obtain ⟨first, others⟩ := (passed_copied_iff present number small fits apart).mp passed
    exact ⟨number, small, by omega, by omega, fun _ => first, others⟩

/-- Good fortune passes them. -/
theorem passed_of_fortunate (fortunate : Fortunate arguments data argv argvBuf) :
    ∃ after, wasiArgsGet arguments (some data) argv argvBuf = .ok (some after) ∧
      Passed arguments data after argv argvBuf (UInt32.ofNat arguments.length)
        (UInt32.ofNat arguments.flatten.length) := by
  obtain ⟨number, small, table, buffer, first, others⟩ := fortunate
  by_cases present : arguments = []
  · subst present
    have none (index : Nat) : ¬ index < ([] : List Bytes).length := Nat.not_lt_zero index
    exact ⟨data, wasiArgsGet_checked table buffer, rfl,
      fun index bound => absurd bound (none index), fun index bound => absurd bound (none index),
      fun index bound => absurd bound (none index), fun _ _ _ => rfl⟩
  · exact ⟨_, wasiArgsGet_of_room fits apart present number small table buffer,
      (passed_copied_iff present number small fits apart).mpr ⟨first present, others⟩⟩

end Room

/-- Passing arguments is lawful exactly when they do not fit and this shows at the first pointer or
byte; when the buffers overlap; and when it is by accident. -/
theorem arguments_passed_iff (arguments : List Bytes) (data : Bytes) (argv argvBuf : UInt32) :
    ArgumentLaw arguments data argv argvBuf ↔
      (¬ BuffersFit data argv argvBuf (UInt32.ofNat arguments.length)
          (UInt32.ofNat arguments.flatten.length) →
        data.length < argv.toNat + 4 ∨ data.length < argvBuf.toNat + 1) ∧
      (BuffersFit data argv argvBuf (UInt32.ofNat arguments.length)
          (UInt32.ofNat arguments.flatten.length) →
        Apart argv.toNat (4 * (UInt32.ofNat arguments.length).toNat) argvBuf.toNat
          (UInt32.ofNat arguments.flatten.length).toNat →
        Fortunate arguments data argv argvBuf) := by
  have reported : Reported arguments _ _ := reported_iff.mpr ⟨rfl, rfl⟩
  constructor
  · intro law
    refine ⟨fun large => ?_, fun fits apart => ?_⟩
    · by_contra inside
      exact wasiArgsGet_ne_none (by omega) (by omega) (law.traps _ _ reported large)
    · obtain ⟨after, gave, passed⟩ := law.passes _ _ reported fits apart
      exact fortunate_of_passed fits apart gave passed
  · rintro ⟨large, fortunate⟩
    constructor
    · intro argc size report fits apart
      obtain ⟨rfl, rfl⟩ := reported_iff.mp report
      exact passed_of_fortunate fits apart (fortunate fits apart)
    · intro argc size report outside
      obtain ⟨rfl, rfl⟩ := reported_iff.mp report
      exact wasiArgsGet_trapped (large outside)

end Calls

/-- One argument of one byte, copied to a memory that is empty there. -/
theorem wasiArgsGet_byte (rest : Bytes) :
    ∃ after, wasiArgsGet [[97]] (some (List.replicate 16 0 ++ rest)) 0 8 = .ok (some after) ∧
      wordAt after 0 = 0 ∧ slice after 0 1 = [0] :=
  ⟨_, rfl, rfl, rfl⟩

/-- One argument of one byte is passed with a pointer to address zero, and one of two bytes is
copied over the end of the memory. -/
theorem argument_not_passed :
    (Reported [[97]] 1 1 ∧ ∃ after, wasiArgsGet [[97]] (some page) 0 8 = .ok (some after) ∧
        wordAt after 0 = 0 ∧ slice after 0 1 ≠ [97]) ∧
      wasiArgsGet [[97, 98]] (some page) 0 65535 = .error .outside := by
  have whole : page = List.replicate 16 0 ++ List.replicate 65520 0 := List.replicate_add 16 65520 0
  obtain ⟨after, gave, pointer, byte⟩ := wasiArgsGet_byte (List.replicate 65520 0)
  rw [← whole] at gave
  refine ⟨⟨reported_iff.mpr ⟨rfl, rfl⟩, after, gave, pointer, by rw [byte]; decide⟩, ?_⟩
  have table : (0 : UInt32).toNat + 4 ≤ page.length := inside_page (by decide)
  have buffer : (65535 : UInt32).toNat + 1 ≤ page.length := inside_page (by decide)
  have overrun : page.length < (65535 : UInt32).toNat + (0 : UInt32).toNat + [97, 98].length := by
    rw [page, List.length_replicate]
    decide
  rw [wasiArgsGet_checked table buffer, copyArguments_outside [] table (by decide) overrun]
  rfl

end Respublica.Vm
