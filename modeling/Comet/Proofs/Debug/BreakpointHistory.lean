import Comet.Proofs.Debug.BreakpointTable
import Comet.Proofs.Debug.Request

namespace Comet

/-- Breakpoints that have been set for a path, with what was in the file then. -/
structure Placing where
  path : String
  lines : List Nat
  file : Except FileError String
  answer : List Breakpoint

namespace BreakpointTable

/-- The table that one placing after the other leads to. -/
inductive Records : BreakpointTable → List Placing → BreakpointTable → Prop
  | nil (table : BreakpointTable) : Records table [] table
  | cons {table last : BreakpointTable} {c : Placing} {log : List Placing}
      (hanswer : c.answer = (table.set c.path c.file.toOption c.lines).1)
      (hrest : Records (table.set c.path c.file.toOption c.lines).2 log last) :
      Records table (c :: log) last

/-- The answer to the last placing for the path. -/
def latest? (log : List Placing) (path : String) : Option (List Breakpoint) :=
  (log.filter (·.path = path)).getLast?.map (·.answer)

theorem latest?_cons (c : Placing) (log : List Placing) (path : String) :
    latest? (c :: log) path =
      (latest? log path).or (if c.path = path then some c.answer else none) := by
  by_cases hpath : c.path = path
  · simp only [latest?, List.filter_cons, hpath, decide_true, if_true, List.getLast?_cons]
    cases (log.filter (·.path = path)).getLast? <;> rfl
  · simp [latest?, hpath]

section records

variable {table last : BreakpointTable} {log : List Placing}

/-- The numbers go up one by one over all placings, whatever the paths. -/
theorem Records.ids (h : Records table log last) :
    (log.flatMap (·.answer)).map (·.id) =
      List.range' table.nextId (log.flatMap (·.lines)).length := by
  induction h with
  | nil => rfl
  | @cons table last c log hanswer _ ih =>
    have hfirst : c.answer.map (·.id) = List.range' table.nextId c.lines.length := by
      rw [hanswer, map_id_set]
    calc ((c :: log).flatMap (·.answer)).map (·.id)
        = c.answer.map (·.id) ++ (log.flatMap (·.answer)).map (·.id) := by
          rw [List.flatMap_cons, List.map_append]
      _ = List.range' table.nextId c.lines.length ++
            List.range' (table.nextId + c.lines.length) (log.flatMap (·.lines)).length := by
          rw [hfirst, ih]
          rfl
      _ = List.range' table.nextId ((c :: log).flatMap (·.lines)).length := by
          rw [List.range'_append_1, List.flatMap_cons, List.length_append]

theorem Records.answered (h : Records table log last) : ∀ c ∈ log,
    c.answer.map (·.line) = c.lines ∧
      ∀ b ∈ c.answer, b.verified = true ↔
        ∃ source, c.file = .ok source ∧ ∃ text, (text, b.line) ∈ readLines source := by
  induction h with
  | nil => nofun
  | @cons table last c log hanswer _ ih =>
    refine List.forall_mem_cons.mpr ⟨⟨?_, ?_⟩, ih⟩
    · rw [hanswer, map_line_set]
    · intro b hb
      rw [hanswer] at hb
      rw [verified_of_mem_set hb]
      cases c.file <;> simp [Except.toOption]

/-- A later placing for a path takes the place of an earlier one, and leaves other paths alone. -/
theorem Records.get_eq (h : Records table log last) (path : String) :
    last.get path = (latest? log path).getD (table.get path) := by
  induction h with
  | nil => rfl
  | @cons table last c log hanswer _ ih =>
    rw [ih, latest?_cons]
    by_cases hpath : c.path = path
    · obtain rfl := hpath
      rw [get_set, ← hanswer, if_pos rfl]
      cases latest? log c.path <;> rfl
    · rw [get_set_of_ne (Ne.symm hpath), if_neg hpath, Option.or_none]

end records

end BreakpointTable

namespace Session

open BreakpointTable

section requests

variable {assembler : Assembler} {s t u : Session} {r : Request} {fuel : Nat}

theorem Moment.Ends.breakpoints {m : Moment} (h : m.Ends u) :
    u.breakpoints = m.session.breakpoints :=
  h.session_invariant (I := fun s => s.breakpoints = m.session.breakpoints)
    (fun m' hm' => m'.next_settings.1.trans hm') rfl

theorem Loads.breakpoints {readText : ReadText} {l : Launch}
    (h : s.Loads assembler readText l t) : t.breakpoints = s.breakpoints := by
  obtain ⟨_, _, -, -, rfl⟩ := h.loaded
  rfl

theorem Starts.breakpoints {m : Moment} (h : Starts assembler s r m) :
    m.session.breakpoints = s.breakpoints := by
  cases h with
  | launch readText l t hload => exact hload.breakpoints
  | run | stepIn | stepOut | next | input => rfl

theorem launch_breakpoints {readText : ReadText} {l : Launch} {e : Except Error Unit}
    (h : s.launch assembler readText l fuel = some (e, u)) : u.breakpoints = s.breakpoints := by
  rcases launch_declines h with ⟨t, hload⟩ | hdeclines
  · rcases (launched_cases hload h).2 with ⟨reason, -, rfl⟩ | ⟨m, hstart, -, hends⟩
    · exact hload.breakpoints
    · exact hends.breakpoints.trans hstart.breakpoints
  · cases hdeclines with
    | late | refused | diagnosed => rfl

theorem resume_breakpoints {pending : Pending} {e : Except Error Unit}
    (h : s.resume pending fuel = some (e, u)) : u.breakpoints = s.breakpoints := by
  cases hline : s.standing? with
  | some line => exact ((s.resume_eq_some_iff line pending e u hline).mp ⟨fuel, h⟩).2.breakpoints
  | none =>
    cases hstate : s.state with
    | idle | terminated | failed =>
      simp only [resume, hstate, Option.some.injEq, Prod.mk.injEq] at h
      obtain ⟨-, rfl⟩ := h
      rfl
    | running | waiting =>
      rw [standing?, hstate] at hline
      cases hline

theorem evaluate_breakpoints {expression : String} {context : EvaluateContext}
    {e : Except Error Evaluation} (h : s.evaluate expression context fuel = some (e, u)) :
    u.breakpoints = s.breakpoints := by
  rcases evaluate_cases h with ⟨line, pending, hwaits, rfl⟩ | rfl
  · simp only [evaluate, hwaits, Option.map_eq_some_iff] at h
    obtain ⟨⟨e, v⟩, hresume, hv⟩ := h
    obtain ⟨-, rfl⟩ := Prod.mk.inj hv
    have hsame := resume_breakpoints hresume
    exact hsame
  · rfl

/-- What a request has placed, if that is what it is for. -/
def placing? (s : Session) : Request → Option Placing
  | .setBreakpoints readText path lines =>
    some ⟨path, lines, readText path, (s.setBreakpoints readText path lines).1⟩
  | _ => none

/-- A request that places no breakpoints leaves the table as it is. -/
theorem after_breakpoints (hr : s.placing? r = none) (h : s.after assembler r fuel = some u) :
    u.breakpoints = s.breakpoints := by
  cases r with
  | setBreakpoints => cases hr
  | launch =>
    obtain ⟨_, hlaunch, rfl⟩ := Option.map_eq_some_iff.mp h
    exact launch_breakpoints hlaunch
  | run | stepIn | stepOut | next =>
    obtain ⟨_, hresume, rfl⟩ := Option.map_eq_some_iff.mp h
    exact resume_breakpoints hresume
  | evaluate =>
    obtain ⟨_, hevaluate, rfl⟩ := Option.map_eq_some_iff.mp h
    exact evaluate_breakpoints hevaluate
  | terminate | takeEvents =>
    obtain rfl := Option.some.inj h
    rfl

/-- What the requests place, one after the other, as far as each of them is answered. -/
def placings (s : Session) (assembler : Assembler) : List (Request × Nat) → List Placing
  | [] => []
  | (r, fuel) :: rest =>
    (s.placing? r).toList ++ (s.after assembler r fuel).elim [] (·.placings assembler rest)

theorem records_of_afterAll {rs : List (Request × Nat)} (h : s.afterAll assembler rs = some u) :
    Records s.breakpoints (s.placings assembler rs) u.breakpoints := by
  induction rs generalizing s with
  | nil =>
    obtain rfl := Option.some.inj h
    exact .nil _
  | cons request rest ih =>
    obtain ⟨r, fuel⟩ := request
    obtain ⟨t, ht, hrest⟩ := Option.bind_eq_some_iff.mp h
    simp only [placings, ht, Option.elim_some]
    cases hr : s.placing? r with
    | none =>
      rw [← after_breakpoints hr ht]
      exact ih hrest
    | some c =>
      cases r with
      | setBreakpoints readText path lines =>
        obtain rfl := Option.some.inj hr
        obtain rfl := Option.some.inj ht
        exact .cons rfl (ih hrest)
      | _ => cases hr

/-- The breakpoints of a session are those of its history. They are numbered from 1000 on in the
order in which they have been asked for. Each answer has the lines asked for, and those are verified
that the assembler would read in the file as it was then. The list of a path is the latest answer
for it, and nothing else but another request for that path changes it. -/
theorem breakpoints_follow_requests {rs : List (Request × Nat)}
    (h : ({} : Session).afterAll assembler rs = some u) :
    let log := ({} : Session).placings assembler rs
    (log.flatMap (·.answer)).map (·.id) = List.range' 1000 (log.flatMap (·.lines)).length ∧
      (∀ c ∈ log, c.answer.map (·.line) = c.lines ∧ ∀ b ∈ c.answer, b.verified = true ↔
        ∃ source, c.file = .ok source ∧ ∃ text, (text, b.line) ∈ readLines source) ∧
      (∀ path, u.breakpoints.get path = (latest? log path).getD []) ∧
      (∀ path line, u.breakpoints.contains path line = true ↔
        ∃ answer ∈ latest? log path, ∃ b ∈ answer, b.verified = true ∧ b.line = line) ∧
      (∀ readText path lines, let (answer, v) := u.setBreakpoints readText path lines
        v.breakpoints.get path = answer ∧
          ∀ other, other ≠ path → v.breakpoints.get other = u.breakpoints.get other) ∧
      ∀ r fuel v, u.placing? r = none → u.after assembler r fuel = some v →
        v.breakpoints = u.breakpoints := by
  have hrecords := records_of_afterAll h
  have hget : ∀ path, u.breakpoints.get path = (latest? _ path).getD [] := hrecords.get_eq
  refine ⟨hrecords.ids, hrecords.answered, hget, ?_, ?_, fun r fuel v => after_breakpoints⟩
  · intro path line
    rw [contains_iff, hget]
    cases latest? _ path <;> simp
  · intro readText path lines
    exact ⟨get_set, fun other => get_set_of_ne⟩

/-- Two files, the first of which changes, and the second of which cannot be read. -/
theorem replaced_breakpoints_numbered_on :
    let before : ReadText := fun path =>
      if path = "a.cas" then .ok "A START\n\n END" else .error .notFound
    let requests := [(Request.setBreakpoints before "a.cas" [0, 1, 1, 9], 0), (.stepIn, 1),
      (.setBreakpoints before "b.cas" [0], 0), (.terminate, 0),
      (.setBreakpoints (fun _ => .ok "\n RET") "a.cas" [1, 0], 0)]
    ∃ u, ({} : Session).afterAll assemble requests = some u ∧
      u.breakpoints.get "a.cas" = [⟨1005, 1, true⟩, ⟨1006, 0, false⟩] ∧
      u.breakpoints.get "b.cas" = [⟨1004, 0, false⟩] ∧
      u.breakpoints.contains "a.cas" 1 = true := by
  intro before requests
  obtain ⟨u, hu⟩ : ∃ u, ({} : Session).afterAll assemble requests = some u := ⟨_, rfl⟩
  obtain ⟨-, -, hget, hcontains, -⟩ := breakpoints_follow_requests hu
  have hlatest : latest? (({} : Session).placings assemble requests) "a.cas" =
      some [⟨1005, 1, true⟩, ⟨1006, 0, false⟩] := by
    decide +kernel
  refine ⟨u, hu, ?_, ?_, ?_⟩
  · rw [hget, hlatest, Option.getD_some]
  · rw [hget]
    decide +kernel
  · exact (hcontains "a.cas" 1).mpr ⟨_, hlatest, _, List.mem_cons_self, rfl, rfl⟩

end requests

end Session

end Comet
