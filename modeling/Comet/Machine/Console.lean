import Comet.Machine.Step

namespace Comet

/-- Where lines come from and go to, in terms of the console's own state. -/
structure Console (σ : Type) where
  /-- The next line, or nothing at the end of input. -/
  readLine : σ → Option String × σ
  writeLine : σ → String → σ

/-- A completed step: whether the program has ended or why it could not go on. -/
structure Completed (σ : Type) where
  result : Except Fault Bool
  machine : Machine
  console : σ

/-- The step is not complete without a line. -/
def Step.wantsLine : Step → Bool
  | reads _ => true
  | _ => false

namespace Machine

/-- Executing the instruction at the program counter asks the console for a line. -/
def ReadsLine (m : Machine) : Prop := m.step.wantsLine = true

instance (m : Machine) : Decidable m.ReadsLine := inferInstanceAs (Decidable (_ = true))

variable {σ : Type}

def stepOn (io : Console σ) (m : Machine) (s : σ) : Completed σ :=
  match m.step with
  | .done m => ⟨.ok m.halted, m, s⟩
  | .reads m =>
    let (line, s) := io.readLine s
    ⟨.ok m.halted, m.accept line, s⟩
  | .writes text m => ⟨.ok m.halted, m, io.writeLine s text⟩
  | .fault f m => ⟨.error f, m, s⟩

end Machine

/-- A console with a queue of input lines that remembers the lines written. -/
structure LineQueue where
  input : List String := []
  output : Array String := #[]
  deriving DecidableEq, Repr

namespace LineQueue

def console : Console LineQueue where
  readLine s := (s.input.head?, { s with input := s.input.tail })
  writeLine s text := { s with output := s.output.push text }

/-- The lines written so far, and the queue without them. -/
def takeOutput (s : LineQueue) : List String × LineQueue :=
  (s.output.toList, { s with output := #[] })

end LineQueue

end Comet
