import RegisterMachine.Operation.Arithmetic
import RegisterMachine.Operation.Lists
import RegisterMachine.Operation.Dialogue

/-!
# The standard table

The operations that every machine can be given: arithmetic, comparison, lists, printing and reading.
-/

namespace RegisterMachine

/-- The standard operations by name. -/
def Table.standard : Table := ⟨[
  ("+", .pure Arithmetic.add),
  ("-", .pure Arithmetic.sub),
  ("*", .pure Arithmetic.mul),
  ("/", .pure Arithmetic.div),
  ("rem", .pure Arithmetic.remainder),
  ("quotient", .pure Arithmetic.quotient),
  ("=", .pure (Arithmetic.compareAll .eq)),
  ("<", .pure (Arithmetic.compareAll .lt)),
  (">", .pure (Arithmetic.compareAll .gt)),
  ("<=", .pure (Arithmetic.compareAll .le)),
  (">=", .pure (Arithmetic.compareAll .ge)),
  ("not", .pure Lists.not),
  ("eq?", .pure Lists.eq),
  ("null?", .pure Lists.null),
  ("pair?", .pure Lists.pair),
  ("cons", Lists.cons),
  ("car", .pure Lists.car),
  ("cdr", .pure Lists.cdr),
  ("list", Lists.list),
  ("print", Dialogue.print),
  ("read", Dialogue.read)]⟩

end RegisterMachine
