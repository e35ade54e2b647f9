/-
  BlockEngine.Run.Trial — one call of a standard native on an idle interpreter.
-/

import BlockEngine.Library.Builder
import BlockEngine.Machine.Evaluate
import BlockEngine.Run.Worker

namespace BlockEngine

structure Trial where
  result : Value
  output : Text
  /-- Bindings made. -/
  bindings : Nat
  /-- Frames left on the control stack. -/
  control : Nat
  /-- What the native kept last. -/
  data : Option Value

/-- Calls the native of a standard block on values, outside of any run. -/
def Trial.of (id : Text) (args : List Value) : Except Fault Trial :=
  match Library.native? id with
  | none => .error (.message ("stdblocks: unknown block " ++ id.quoted))
  | some native =>
    let (args, storage) := Storage.placeAll args {}
    let m : Machine := { exec := { limits := .standard }, storage := storage }
    match (Work.perform (Work.invoke Work.fuel) (native args) m).unpaused with
    | .done v m =>
      .ok
        { result := m.storage.view v
          output := m.host.output
          bindings := m.exec.bindings.length
          control := m.exec.control.length
          data := m.exec.control.head?.map fun f => m.storage.view f.value }
    | .fault f _ => .error f
    | .paused m _ => .ok ⟨.nothing, [], m.exec.bindings.length, m.exec.control.length, none⟩
    | .starved m => .ok ⟨.nothing, [], m.exec.bindings.length, m.exec.control.length, none⟩

end BlockEngine
