import Comet.Machine.State

namespace Comet

structure Variable where
  name : String
  value : String
  typeName : String
  deriving DecidableEq, Repr

namespace Variable

def integer (name : String) (value : Nat) : Variable := ⟨name, toString value, "integer"⟩

/-- The general registers, the other registers and the flags. -/
def all (m : Machine) : List Variable :=
  (m.gr.toList.mapIdx fun i w => integer s!"GR{i}" w.toNat) ++
    [integer "PR" m.pr.toNat, integer "SP" m.sp.toNat, integer "OF" m.flags.overflow.toNat,
      integer "SF" m.flags.sign.toNat, integer "ZF" m.flags.zero.toNat]

def find? (m : Machine) (name : String) : Option Variable := (all m).find? (·.name == name)

end Variable

end Comet
