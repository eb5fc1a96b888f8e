namespace Comet

structure AssemblyOptions where
  /-- `GR8` may be written where a register is wanted. -/
  useGr8 : Bool := true
  /-- Labels belong to their block; otherwise all labels are global. -/
  labelScope : Bool := true
  deriving DecidableEq, Repr

structure MachineOptions where
  /-- Register field 8 is the stack pointer; otherwise no register has that number. -/
  gr8IsSp : Bool := true
  deriving DecidableEq, Repr

structure Launch where
  /-- Path of the source file. -/
  program : String
  stopOnEntry : Bool := false
  machine : MachineOptions := {}
  assembly : AssemblyOptions := {}
  deriving DecidableEq, Repr

end Comet
