import SymLift.Term.Object
import SymLift.Lift

/-!
# The objects of a path state

An `ObjectTable` knows, beside a path state, which object each of its values
is: the temporaries that are bound, and the bytes that were written.

* A temporary, and a byte that is stored alone, keep the object that they
  were given.  Any other byte that is written is a new object.
* `PathState.objectOf?` is the object that lifting a tree hands
  back, if it is one of the state.  Otherwise lifting makes a new
  object.
-/

namespace SymLift

/-- The register file or the memory of a state. -/
inductive Space where
  | registers
  | memory
  deriving DecidableEq

/-- The objects of a path state. -/
structure ObjectTable where
  /-- The next number. -/
  next : Nat := 0
  temps : Std.TreeMap Nat Identity := ∅
  registers : Std.TreeMap Nat Identity := ∅
  memory : Std.TreeMap Nat Identity := ∅

namespace ObjectTable

/-- The object of a byte that was written. -/
def cell? (t : ObjectTable) (space : Space) (addr : Nat) : Option Identity :=
  match space with
  | .registers => t.registers[addr]?
  | .memory => t.memory[addr]?

/-- Sets the object of a byte. -/
def setCell (t : ObjectTable) (space : Space) (addr : Nat) (value : Identity) : ObjectTable :=
  match space with
  | .registers => { t with registers := t.registers.insert addr value }
  | .memory => { t with memory := t.memory.insert addr value }

/-- Binds a temporary. -/
def bindTemp (t : ObjectTable) (tmp : Nat) (value : Identity) : ObjectTable :=
  { t with temps := t.temps.insert tmp value }

/-- Forgets every temporary. -/
def clearTemps (t : ObjectTable) : ObjectTable := { t with temps := ∅ }

/-- Writes `count` bytes that are new objects. -/
def writeNew (t : ObjectTable) (space : Space) : (addr count : Nat) → ObjectTable
  | _, 0 => t
  | addr, count + 1 =>
    writeNew { t.setCell space addr { number := t.next } with next := t.next + 1 } space
      (ByteStore.addressAt addr 1) count

/-- Writes a value. -/
def write (t : ObjectTable) (space : Space) (addr : Nat) (value : Object) : ObjectTable :=
  if value.term.width = 8 then t.setCell space addr value.identity
  else t.writeNew space addr (bytesFor value.term.width)

/-- Builds a term over the objects of the table. -/
def build {α : Type} (t : ObjectTable) (leafObject : α → Identify Object)
    (c : Construction α) : Except Fault (Object × ObjectTable) := do
  let (value, next) ← (c.identify leafObject).run t.next
  .ok (value, { t with next })

/-- The object of a value that lifting a tree gave: what it handed back, or a
new object. -/
def ofLifted (t : ObjectTable) (handedBack : Option Identity) : Identity × ObjectTable :=
  match handedBack with
  | some value => (value, t)
  | none => ({ number := t.next }, { t with next := t.next + 1 })

end ObjectTable

namespace PathState

/-- The operand of an operator that the operator hands back. -/
def handedBack? (op : IR.Op) (args : List Term) : Option Nat :=
  match op, args with
  | .convert .unsigned source target, [_] | .convert .signed source target, [_] =>
    if source = target then some 0 else none
  | .convert .low _ target, [arg] => if target = arg.width then some 0 else none
  | .convert .high source target, [arg] =>
    if source = target ∧ source = arg.width then some 0 else none
  | .sized .maxU _, [left, right] =>
    match (Fold.compare .ult left right).boolValue? with
    | some true => some 1
    | some false => some 0
    | none => if left = right then some 1 else none
  | _, _ => none

/-- The operand that an operator hands back, when its operands are trees. -/
def handedBackBy? (policy : ArgumentPolicy) (s : PathState) (op : IR.Op)
    (args : List IR.Expr) : Option Nat :=
  match s.liftAll policy args with
  | .ok values => handedBack? op (values.map (·.value))
  | .error _ => none

/-- The object of the state that lifting a tree hands back. -/
def objectOf? (policy : ArgumentPolicy) (s : PathState) (t : ObjectTable) :
    IR.Expr → Option Identity
  | .rdTmp tmp => t.temps[tmp.toNat]?
  | .get offset ty =>
    if ty.width = 8 then t.cell? .registers (offset.toNat % Word.size s.guest.wordBits)
    else none
  | .load _ ty addr =>
    match ty.width, s.lift policy addr with
    | 8, .ok addr =>
      (ByteStore.resolveAddress? addr.value (s.constraints ++ addr.needs)).bind (t.cell? .memory)
    | _, _ => none
  | .unop op arg =>
    match handedBackBy? policy s op [arg] with
    | some _ => objectOf? policy s t arg
    | none => none
  | .binop op arg1 arg2 =>
    match handedBackBy? policy s op [arg1, arg2] with
    | some 0 => objectOf? policy s t arg1
    | some _ => objectOf? policy s t arg2
    | none => none
  | .mux0X cond expr0 exprX =>
    match s.liftAll policy [cond, expr0, exprX] with
    | .ok [cond, zeroCase, otherCase] =>
      match cond.value.constValue? with
      | some 0 => objectOf? policy s t expr0
      | some _ => objectOf? policy s t exprX
      | none => if zeroCase.value = otherCase.value then objectOf? policy s t expr0 else none
    | _ => none
  | _ => none

end PathState

end SymLift
