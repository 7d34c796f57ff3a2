import MovingHeap.World

/-! Roots that belong to no frame: loaded modules and the table of constants.
What goes wrong with a module is an answer, never a violation.
-/

namespace MovingHeap.World

variable {σ δ α : Type}

/-- Takes over a changed module table, or leaves it as it was. -/
def updateModules (result : Except ModuleError ModuleTable)
    : Action (World σ δ) (Except ModuleError Unit) := do
  match result with
  | .error error => return .error error
  | .ok modules =>
      modifyHeap ({ · with modules })
      return .ok ()

/-- Loads a module at the given rank, or at the lowest unused one. -/
def loadModule (loader : Loader) (name searchPath : String) (wanted : Option Nat)
    : Action (World σ δ) (Except ModuleError Nat) := do
  let modules := (← heapNow).modules
  match modules.claim wanted with
  | .error error => return .error error
  | .ok rank =>
      match modules.register loader name searchPath rank with
      | .error error =>
          report (.moduleFailed name searchPath)
          return .error error
      | .ok modules =>
          report (.moduleLoaded name rank)
          modifyHeap ({ · with modules })
          return .ok rank

/-- Drops the module at a rank; its constant is no root any more. -/
def unloadModule (rank : Nat) : Action (World σ δ) (Except ModuleError Unit) := do
  match (← heapNow).modules.unload rank with
  | .error error => return .error error
  | .ok (entry, modules) =>
      report (.moduleUnloaded entry.name rank)
      modifyHeap ({ · with modules })
      return .ok ()

/-- Sets the constant of the module at a rank. -/
def setModuleConstant (rank : Nat) (value : Value)
    : Action (World σ δ) (Except ModuleError Unit) := do
  updateModules ((← heapNow).modules.setConstant rank value)

/-- Sets the host's data of the module at a rank. -/
def setModuleExtra (rank extra : Nat) : Action (World σ δ) (Except ModuleError Unit) := do
  updateModules ((← heapNow).modules.setExtra rank extra)

/-- Sets a global constant. -/
def setConstant (index : Nat) (value : Value) : Action (World σ δ) Unit :=
  modifyHeap fun heap => { heap with constants := heap.constants.set index value }

end MovingHeap.World
