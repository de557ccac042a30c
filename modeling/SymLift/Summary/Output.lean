import SymLift.Summary.Strlen

/-!
# Summaries that write

* `Summary.write` is `size_t write(int, void *, size_t)`.  It records the
  bytes of the buffer: exactly as many as a known count says, up to a limit,
  and a fixed number of them for a count that is not known.
* `Summary.putchar` is `int putchar(int)`.  It records the low byte of its
  argument, and returns the argument.
* `Summary.puts` is `int puts(const char *)`.  It is made of the others: the
  length of the string, a write of that length, and a newline.
-/

namespace SymLift.Summary

/-- The descriptor of the standard output. -/
def standardOutput : Nat := 1

/-- Writes to a descriptor. -/
def record (fd : Term) (data : List Term) (length : Term) : Execution Unit :=
  update fun s => do
    .ok { s with channels := ← s.channels.write fd data length }

/-! ## write -/

/-- The number of bytes that a write of `count` bytes records. -/
def bytesToRecord (config : Config) (count : Term) : Except Failure Nat :=
  match count.addressValue? with
  | some n =>
    if config.maxWriteBytes.toNat < n then
      .error (.writeTooLong n config.maxWriteBytes.toNat)
    else .ok n
  | none => .ok config.maxBufferBytes.toNat

/-- The bytes of a buffer. -/
def bufferBytes (s : PathState) (buffer : Term) (count : Nat) : Except Failure (List Term) :=
  (List.range count).mapM (Strlen.byteOf s buffer)

/-- Writes `count` bytes of a buffer to a descriptor. -/
def writeBuffer (config : Config) (fd buffer count : Term) : Execution ReturnValue := do
  let available ← read fun _ => bytesToRecord config count
  let data ← read (bufferBytes · buffer available)
  record fd data count
  return none

/-- `size_t write(int, void *, size_t)`. -/
def write : Summary where
  name := "write"
  signature := { args := [.cInt, .pointer .void, .sizeT], ret := .sizeT }
  body config args :=
    match args with
    | [fd, buffer, count] => writeBuffer config fd buffer count
    | _ => throw (.inlineArgumentCount "write" 3 args.length)

/-! ## putchar -/

/-- Writes the low byte of a character. -/
def writeChar (char : Term) : Execution ReturnValue := do
  let byte ← read fun _ => Failure.ofFault (Build.extract 7 0 char)
  let word := (← get).word
  record (word standardOutput) [byte] (word 1)
  return some char

/-- `int putchar(int)`. -/
def putchar : Summary where
  name := "putchar"
  signature := { args := [.cInt], ret := .cInt }
  body _ args :=
    match args with
    | [char] => writeChar char
    | _ => throw (.inlineArgumentCount "putchar" 1 args.length)

/-! ## puts -/

/-- Writes a string and a newline. -/
def writeLine (config : Config) (string : Term) : Execution ReturnValue := do
  let guest := (← get).guest
  let result ← strlen.inlineCall config [string]
  let length ← read fun _ => Failure.ofFault (result.materialize "strlen_ret" guest.wordBits)
  let stdout := guest.word standardOutput
  let _ ← write.inlineCall config [stdout, string, length]
  record stdout [Fold.lit 0x0a 8] (guest.word 1)
  return none

/-- `int puts(const char *)`. -/
def puts : Summary where
  name := "puts"
  signature := { args := [.string], ret := .cInt }
  body config args :=
    match args with
    | [string] => writeLine config string
    | _ => throw (.inlineArgumentCount "puts" 1 args.length)

end SymLift.Summary
