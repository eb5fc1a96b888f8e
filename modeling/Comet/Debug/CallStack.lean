namespace Comet

structure Frame where
  subroutine : String
  /-- The line of the call made from this frame, once one has been made. -/
  callLine : Option Nat := none
  deriving DecidableEq, Repr

/-- The frames, innermost first. -/
structure CallStack where
  frames : List Frame := []
  deriving DecidableEq, Repr

namespace CallStack

def outermostFirst (s : CallStack) : List Frame := s.frames.reverse

def depth (s : CallStack) : Nat := s.frames.length

def start (entry : String) : CallStack := ⟨[⟨entry, none⟩]⟩

/-- Notes the line of the call on the caller's frame and adds the frame of the callee. -/
def enter (s : CallStack) (line : Nat) (subroutine : String) : CallStack :=
  match s.frames with
  | [] => ⟨[⟨subroutine, none⟩]⟩
  | caller :: rest => ⟨⟨subroutine, none⟩ :: { caller with callLine := some line } :: rest⟩

/-- Removes the innermost frame. The outermost frame is never removed. -/
def leave (s : CallStack) : Option Frame × CallStack :=
  match s.frames with
  | innermost :: caller :: rest => (some innermost, ⟨caller :: rest⟩)
  | _ => (none, s)

@[simp] theorem depth_start (entry : String) : (start entry).depth = 1 := rfl

@[simp] theorem depth_enter (s : CallStack) (line : Nat) (subroutine : String) :
    (s.enter line subroutine).depth = s.depth + 1 := by
  obtain ⟨_ | ⟨caller, rest⟩⟩ := s <;> rfl

theorem depth_leave (s : CallStack) :
    s.leave.2.depth = if s.depth ≤ 1 then s.depth else s.depth - 1 := by
  obtain ⟨_ | ⟨innermost, _ | ⟨caller, rest⟩⟩⟩ := s <;> simp [leave, depth]

end CallStack

end Comet
