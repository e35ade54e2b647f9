/-
  BlockEngine.Registry.Procedure — definitions that make up a procedure.

  A procedure is a signature, whose blocks call it, and one placeholder for each parameter, whose
  blocks yield the argument. The signature embeds the placeholders.
-/

import BlockEngine.Registry.Basic
import BlockEngine.Value.Coercion

namespace BlockEngine

/-- The code of signatures: the first operand is the defining chain, the rest are arguments. -/
def callProcedure : Native
  | [] => do
    Proc.fail .unlinked
    return .nothing
  | c :: args => Proc.call c.chain? args

/-- The code of placeholders: the only operand is the parameter's position. -/
def parameterValue : Native
  | [] => return .nothing
  | i :: _ => Proc.argument i.toInt64.toInt

namespace Registry

/-- Adds a placeholder for each name, from position `i` on, and gives the inputs that embed
    them. -/
def addParameters (name : Text) : Nat → List Text → Registry → List Input × Registry
  | _, [], r => ([], r)
  | i, p :: ps, r =>
    let (h, r) := r.alloc
      { id := name ++ "." ++ p
        inputs := [{ type := .text, text := p }]
        native := some parameterValue
        role := .parameter i }
    let (inputs, r) := addParameters name (i + 1) ps r
    ({ type := .argument, child := h } :: inputs, r)

def newProcedure (name : Text) (params : List Text) (r : Registry) : Handle × Registry :=
  let (inputs, r) := r.addParameters name 0 params
  r.alloc
    { id := name
      inputs := { type := .text, text := name } :: inputs
      native := some callProcedure
      role := .call }

end Registry

end BlockEngine
