import Comet.Debug.Session

namespace Comet.Session

/-- A line that the program has written. -/
def Event.written (text : String) : Event := .output .stdout (text ++ "\n")

/-- What is wrong with a program. -/
def Event.reported (d : Diagnostic) : Event := .output .stderr (d.display ++ "\n")

theorem fail_events (s : Session) (line : Nat) (message : String) :
    (s.fail line message).events =
      s.events ++ #[.output .stderr (message ++ "\n"), .stopped .exception (some message)] := by
  simp only [fail, emit, Array.push_eq_append, Array.append_assoc]
  rfl

theorem stop_events (s : Session) (line : Nat) (reason : StopReason) :
    (s.stop line reason).events = s.events ++ #[.stopped reason none] :=
  Array.push_eq_append

theorem terminate_events (s : Session) : s.terminate.events = s.events ++ #[.terminated] :=
  Array.push_eq_append

theorem wait_events (s : Session) (line : Nat) (pending : Pending) :
    (s.wait line pending).events = s.events ++ #[.output .console inputPrompt] :=
  Array.push_eq_append

/-- The texts of the program's output among the events. -/
def stdoutTexts (events : Array Event) : List String :=
  events.toList.filterMap fun
    | .output .stdout text => some text
    | _ => none

@[simp] theorem stdoutTexts_append (xs ys : Array Event) :
    stdoutTexts (xs ++ ys) = stdoutTexts xs ++ stdoutTexts ys := by
  simp [stdoutTexts]

@[simp] theorem stdoutTexts_lines (texts : Array String) :
    stdoutTexts (texts.map fun text => .output .stdout (text ++ "\n")) =
      texts.toList.map (· ++ "\n") := by
  have hsome : texts.toList.filterMap (fun text => some (text ++ "\n")) =
      texts.toList.map (· ++ "\n") := congrFun List.filterMap_eq_map _
  rw [stdoutTexts, Array.toList_map, List.filterMap_map]
  exact hsome

theorem stdoutTexts_push (events : Array Event) (e : Event) :
    stdoutTexts (events.push e) = stdoutTexts events ++ stdoutTexts #[e] := by
  rw [← stdoutTexts_append]
  simp

@[simp] theorem stop_texts (s : Session) (line : Nat) (reason : StopReason) :
    stdoutTexts (s.stop line reason).events = stdoutTexts s.events := by
  simp only [stop, emit, stdoutTexts_push]
  simp [stdoutTexts]

@[simp] theorem fail_texts (s : Session) (line : Nat) (message : String) :
    stdoutTexts (s.fail line message).events = stdoutTexts s.events := by
  simp only [fail, emit, stdoutTexts_push]
  simp [stdoutTexts]

@[simp] theorem terminate_texts (s : Session) :
    stdoutTexts s.terminate.events = stdoutTexts s.events := by
  simp only [terminate, emit, stdoutTexts_push]
  simp [stdoutTexts]

@[simp] theorem wait_texts (s : Session) (line : Nat) (pending : Pending) :
    stdoutTexts (s.wait line pending).events = stdoutTexts s.events := by
  simp only [wait, emit, stdoutTexts_push]
  simp [stdoutTexts]

end Comet.Session
