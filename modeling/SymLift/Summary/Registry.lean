import SymLift.Summary.Output
import Std.Data.TreeMap

/-!
# Registered summaries

A `Registry` holds summaries by library and symbol, in the order of those
names.  It is filled before an analysis starts and only read after that.
-/

namespace SymLift

/-- Summaries by library and symbol. -/
structure Registry where
  entries : Std.TreeMap (String × String) Summary
    (compareLex (compareOn (·.1)) (compareOn (·.2))) := ∅

namespace Registry

/-- The library of the C routines. -/
def libc : String := "libc.so.6"

/-- The library of the system calls. -/
def syscalls : String := "syscalls"

/-- Registers a summary.  It replaces what was registered before. -/
def register (r : Registry) (library symbol : String) (summary : Summary) : Registry :=
  { entries := r.entries.insert (library, symbol) summary }

/-- The summaries that come with this library. -/
def defaults : Registry :=
  let r : Registry := {}
  let r := r.register libc "strlen" .strlen
  let r := r.register libc "puts" .puts
  let r := r.register libc "putchar" .putchar
  r.register syscalls "write" .write

/-- The summary of a symbol. -/
def lookup? (r : Registry) (library symbol : String) : Option Summary :=
  r.entries[(library, symbol)]?

/-- The summaries of a library with their symbols, in the order of the
symbols. -/
def ofLibrary (r : Registry) (library : String) : List (String × Summary) :=
  r.entries.toList.filterMap fun ((lib, symbol), summary) =>
    if lib = library then some (symbol, summary) else none

/-- The symbols of a library, in order. -/
def symbols (r : Registry) (library : String) : List String :=
  (r.ofLibrary library).map (·.1)

/-- Checks every summary of a library against a convention, and fails with
the first that does not pass. -/
def check (r : Registry) (library : String) (cc : Convention) : Except Failure Unit :=
  (r.ofLibrary library).forM fun (_, summary) => cc.check summary.name summary.signature

/-- The number of summaries. -/
def size (r : Registry) : Nat := r.entries.size

end Registry

end SymLift
