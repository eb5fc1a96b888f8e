import Comet.Assembly.Link
import Comet.Proofs.Machine.PlainSteps
import Comet.Proofs.Text.Encoding

/-! Output that is lost. The console of a plain run cannot tell the program that a write has failed;
it keeps the first failure until the run is over. What the program does does not depend on the
writer, so a run is one in which nothing is lost, seen through the writer. -/
namespace Comet

/-- The second console is the first one seen through a function of its state. -/
structure Console.Shows {σ τ : Type} (io : Console τ) (io' : Console σ) (view : τ → σ) : Prop where
  readLine : ∀ t, io'.readLine (view t) = ((io.readLine t).1, view (io.readLine t).2)
  writeLine : ∀ t text, io'.writeLine (view t) text = view (io.writeLine t text)

namespace Console.Shows

variable {σ τ : Type} {io : Console τ} {io' : Console σ} {view : τ → σ}

theorem stepOn (h : io.Shows io' view) (m : Machine) (t : τ) :
    m.stepOn io' (view t) =
      ⟨(m.stepOn io t).result, (m.stepOn io t).machine, view (m.stepOn io t).console⟩ := by
  unfold Machine.stepOn
  cases m.step with
  | done m | fault f m => rfl
  | reads m => simp only [h.readLine]
  | writes text m => simp only [h.writeLine]

/-- The program cannot tell the two consoles apart. -/
theorem stepsOn (h : io.Shows io' view) (m : Machine) (t : τ) (n : Nat) :
    m.stepsOn io' (view t) n = (m.stepsOn io t n).map fun (m, t) => (m, view t) := by
  induction n with
  | zero => rfl
  | succ n ih =>
    rw [Machine.stepsOn, Machine.stepsOn, ih]
    cases m.stepsOn io t n with
    | none => rfl
    | some run =>
      obtain ⟨m, t⟩ := run
      simp only [Option.map_some, Option.bind_some, h.stepOn]
      cases (m.stepOn io t).result with
      | error f => rfl
      | ok halted => cases halted <;> rfl

theorem runToEnd (h : io.Shows io' view) (m : Machine) (t : τ) (steps fuel : Nat) :
    m.runToEnd io' (view t) steps fuel =
      (m.runToEnd io t steps fuel).map fun (result, m, t) => (result, m, view t) := by
  induction fuel generalizing m t steps with
  | zero => rfl
  | succ fuel ih =>
    rw [Machine.runToEnd, Machine.runToEnd, h.stepOn]
    cases hresult : (m.stepOn io t).result with
    | error f => rfl
    | ok halted =>
      cases halted with
      | true => rfl
      | false => exact ih _ _ _

end Console.Shows

namespace Writer

variable {σ : Type} {w : Writer σ} {s t u : σ}

/-- Writes texts one after the other, up to the first write that fails. -/
def writeAll (w : Writer σ) (s : σ) : List String → Option String × σ
  | [] => (none, s)
  | text :: rest => match w.write s text with
    | (none, s) => w.writeAll s rest
    | (some reason, s) => (some reason, s)

/-- Of the texts, one after the other, those before this one are written, and the write of this one
fails. The writer is left there. -/
def FailsAt (w : Writer σ) (s : σ) (written : List String) (lost reason : String) (u : σ) : Prop :=
  ∃ t, w.writeAll s written = (none, t) ∧ w.write t lost = (some reason, u)

/-- What the writer has received, in bytes: of each write that succeeds the whole text, and of one
that fails no more than a part from its beginning. -/
structure Receives (w : Writer σ) (received : σ → List UInt8) : Prop where
  whole : ∀ s text, (w.write s text).1 = none →
    received (w.write s text).2 = received s ++ Text.utf8Encode text
  part : ∀ s text, ∃ part, part <+: Text.utf8Encode text ∧
    received (w.write s text).2 = received s ++ part
  flush : ∀ s, received (w.flush s).2 = received s

theorem writeAll_append (w : Writer σ) (s : σ) (texts rest : List String) :
    w.writeAll s (texts ++ rest) = match w.writeAll s texts with
      | (none, t) => w.writeAll t rest
      | (some reason, t) => (some reason, t) := by
  induction texts generalizing s with
  | nil => rfl
  | cons text texts ih =>
    rw [List.cons_append, writeAll, writeAll]
    rcases w.write s text with ⟨_ | reason, t⟩
    · exact ih t
    · rfl

/-- Once a write has failed nothing more is written. -/
theorem writeAll_eq_some_iff {texts : List String} {reason : String} :
    w.writeAll s texts = (some reason, u) ↔ ∃ written lost rest,
      texts = written ++ lost :: rest ∧ w.FailsAt s written lost reason u := by
  constructor
  · intro h
    induction texts generalizing s with
    | nil => cases h
    | cons text texts ih =>
      rw [writeAll] at h
      rcases hwrite : w.write s text with ⟨_ | reason', t⟩
      · rw [hwrite] at h
        obtain ⟨written, lost, rest, rfl, t', hwritten, hlost⟩ := ih h
        refine ⟨text :: written, lost, rest, rfl, t', ?_, hlost⟩
        rw [writeAll, hwrite]
        exact hwritten
      · rw [hwrite] at h
        cases h
        exact ⟨[], text, texts, rfl, s, rfl, hwrite⟩
  · rintro ⟨written, lost, rest, rfl, t, hwritten, hlost⟩
    rw [writeAll_append, hwritten]
    simp only [writeAll, hlost]

theorem Receives.writeAll {received : σ → List UInt8} (h : w.Receives received)
    {texts : List String} (hwritten : w.writeAll s texts = (none, t)) :
    received t = received s ++ texts.flatMap Text.utf8Encode := by
  induction texts generalizing s with
  | nil =>
    obtain rfl : s = t := congrArg Prod.snd hwritten
    simp
  | cons text texts ih =>
    rw [Writer.writeAll] at hwritten
    rcases hwrite : w.write s text with ⟨_ | reason, s'⟩
    · rw [hwrite] at hwritten
      have hwhole := h.whole s text
      rw [hwrite] at hwhole
      rw [ih hwritten, hwhole rfl, List.flatMap_cons, List.append_assoc]
    · rw [hwrite] at hwritten
      cases hwritten

theorem Receives.writeAll_prefix {received : σ → List UInt8} (h : w.Receives received)
    (s : σ) (texts : List String) : ∃ part, part <+: texts.flatMap Text.utf8Encode ∧
      received (w.writeAll s texts).2 = received s ++ part := by
  rcases hall : w.writeAll s texts with ⟨_ | reason, t⟩
  · exact ⟨_, List.prefix_refl _, h.writeAll hall⟩
  · obtain ⟨written, lost, rest, rfl, t', hwritten, hlost⟩ := writeAll_eq_some_iff.mp hall
    obtain ⟨part, hpart, hreceived⟩ := h.part t' lost
    rw [hlost] at hreceived
    refine ⟨written.flatMap Text.utf8Encode ++ part, ?_, ?_⟩
    · rw [List.flatMap_append, List.flatMap_cons]
      exact (List.prefix_append_right_inj _).mpr (hpart.trans (List.prefix_append _ _))
    · rw [hreceived, h.writeAll hwritten, List.append_assoc]

end Writer

namespace StreamConsole

variable {σ : Type}

/-- The console of a plain run once these texts have been written to it, or lost. -/
def written (w : Writer σ) (output : σ) (input : List UInt8) (texts : List String) :
    StreamConsole σ :=
  { input, output := (w.writeAll output texts).2, failure := (w.writeAll output texts).1 }

theorem write_written (w : Writer σ) (output : σ) (input : List UInt8) (texts : List String)
    (text : String) :
    write w (written w output input texts) text = written w output input (texts ++ [text]) := by
  unfold write written
  rw [Writer.writeAll_append]
  rcases w.writeAll output texts with ⟨_ | reason, s⟩
  · simp only [Writer.writeAll]
    rcases hwrite : w.write s text with ⟨_ | reason, t⟩ <;> simp [hwrite]
  · rfl

end StreamConsole

/-- What has happened at a console on which nothing is lost: the input that is left, and the lines
that the program has written. -/
structure Transcript where
  input : List UInt8
  lines : List String := []

namespace Transcript

variable {σ : Type}

def console : Console Transcript where
  readLine t :=
    let (line, c) := StreamConsole.readLine { input := t.input, output := () }
    (line, { t with input := c.input })
  writeLine t text := { t with lines := t.lines ++ [text] }

/-- The texts to be written, in their order: each line and a line feed behind it. -/
def texts (t : Transcript) : List String := t.lines.flatMap fun line => [line, "\n"]

/-- All the lines, each followed by a line feed, in bytes. -/
def bytes (t : Transcript) : List UInt8 :=
  t.lines.flatMap fun line => Text.utf8Encode (line ++ "\n")

/-- The console of a plain run to which the same has happened. -/
def through (w : Writer σ) (output : σ) (t : Transcript) : StreamConsole σ :=
  .written w output t.input t.texts

theorem flatMap_texts (t : Transcript) : t.texts.flatMap Text.utf8Encode = t.bytes := by
  simp [texts, bytes, List.flatMap_assoc, Text.utf8Encode_append]

theorem shows_through (w : Writer σ) (output : σ) :
    console.Shows (StreamConsole.console w) (·.through w output) where
  readLine t := by
    simp only [StreamConsole.console, StreamConsole.readLine, console, through,
      StreamConsole.written, texts]
    split <;> rfl
  writeLine t text := by
    simp only [StreamConsole.console, console, through, texts, StreamConsole.write_written,
      List.append_assoc, List.flatMap_append, List.flatMap_singleton]
    rfl

end Transcript

namespace Machine

variable {σ τ : Type} {io : Console σ} {m m' : Machine} {s s' : σ}

/-- After this many steps the program still goes on, and the next step is its last one: the program
ends with it, or it faults. -/
def EndsAt (io : Console σ) (m : Machine) (s : σ) (n : Nat) (last : Completed σ) : Prop :=
  ∃ m' s', m.stepsOn io s n = some (m', s') ∧ last = m'.stepOn io s' ∧ last.result ≠ .ok false

theorem EndsAt.shows {io : Console τ} {io' : Console σ} {view : τ → σ} (h : io.Shows io' view)
    {t : τ} {n : Nat} {last : Completed τ} (hends : m.EndsAt io t n last) :
    m.EndsAt io' (view t) n ⟨last.result, last.machine, view last.console⟩ := by
  obtain ⟨m', t', hsteps, rfl, hover⟩ := hends
  refine ⟨m', view t', ?_, (h.stepOn m' t').symm, hover⟩
  rw [h.stepsOn, hsteps]
  rfl

theorem EndsAt.map_result_eq_ok_iff {n steps count : Nat} {last : Completed σ}
    (hends : m.EndsAt io s n last) :
    last.result.map (fun _ => count) = .ok steps ↔ last.result = .ok true ∧ steps = count := by
  obtain ⟨-, -, -, -, hover⟩ := hends
  cases hresult : last.result with
  | error f => simp [Except.map]
  | ok halted =>
    cases halted with
    | true => simp [Except.map, eq_comm]
    | false => exact absurd hresult hover

/-- A plain run that is over has ended with some step and says how. The run may be looked at from
behind its first steps. -/
theorem endsAt_of_runToEnd {m₁ : Machine} {s₁ : σ} {steps fuel : Nat} {result : Except Fault Nat}
    (hsteps : m.stepsOn io s steps = some (m₁, s₁))
    (h : m₁.runToEnd io s₁ steps fuel = some (result, m', s')) :
    ∃ n last, m.EndsAt io s n last ∧ result = last.result.map (fun _ => n + 1) ∧
      s' = last.console := by
  induction fuel generalizing m₁ s₁ steps with
  | zero => cases h
  | succ fuel ih =>
    rw [runToEnd] at h
    cases hresult : (m₁.stepOn io s₁).result with
    | error f =>
      rw [hresult] at h
      cases h
      exact ⟨steps, _, ⟨m₁, s₁, hsteps, rfl, by simp [hresult]⟩, by rw [hresult]; rfl, rfl⟩
    | ok halted =>
      rw [hresult] at h
      cases halted with
      | true =>
        cases h
        exact ⟨steps, _, ⟨m₁, s₁, hsteps, rfl, by simp [hresult]⟩, by rw [hresult]; rfl, rfl⟩
      | false => exact ih (stepsOn_succ_eq_some hsteps hresult) h

end Machine

theorem runFile_eq {σ : Type} (w : Writer σ) (assembler : Assembler)
    (readText : String → Except FileError String) (l : Launch) (input : List UInt8) (output : σ)
    (fuel : Nat) :
    runFile w assembler readText l input output fuel = match loadFile assembler readText l with
      | .error e => some ⟨.error e, output⟩
      | .ok m => (m.runToEnd Transcript.console { input } 0 fuel).map fun run =>
        (run.2.2.through w output).outcome w run.1 := by
  unfold runFile loadFile
  cases readText l.program with
  | error e => rfl
  | ok source =>
    simp only
    rcases assembler source l.assembly with ⟨_ | ⟨d, diagnostics⟩, _ | p⟩
    · rfl
    · simp only
      unfold Program.run
      cases Machine.load p l.machine with
      | error f => rfl
      | ok m =>
        have hshows := (Transcript.shows_through w output).runToEnd m { input } 0 fuel
        have hstart : Transcript.through w output { input } = { input, output } := rfl
        rw [hstart] at hshows
        simp only [hshows, Option.map_map]
        refine congrArg (Option.map · _) (funext ?_)
        rintro ⟨result, m', t⟩
        cases result <;> rfl
    · rfl
    · rfl

section outcome

variable {σ : Type} {w : Writer σ} {output u : σ} {t : Transcript} {result : Except Fault Nat}

theorem outcome_eq_ok_iff {n : Nat} :
    ((t.through w output).outcome w result).result = .ok n ↔ result = .ok n ∧
      ∃ s, w.writeAll output t.texts = (none, s) ∧
        w.flush s = (none, ((t.through w output).outcome w result).output) := by
  unfold Transcript.through StreamConsole.written StreamConsole.outcome StreamConsole.finish
  cases result with
  | error f => simp
  | ok steps =>
    rcases w.writeAll output t.texts with ⟨_ | reason, s⟩
    · rcases hflush : w.flush s with ⟨_ | reason, u⟩ <;> simp [hflush]
    · simp

/-- The first write that fails is what is told of, unless the program faults; the writer is left as
that write leaves it. -/
theorem outcome_of_failsAt {written rest : List String} {lost reason : String}
    (ht : t.texts = written ++ lost :: rest) (hfails : w.FailsAt output written lost reason u) :
    (t.through w output).outcome w result =
      ⟨.error (match result with | .error f => .fault f | .ok _ => .output reason), u⟩ := by
  have hall := Writer.writeAll_eq_some_iff.mpr ⟨written, lost, rest, ht, hfails⟩
  unfold Transcript.through StreamConsole.written StreamConsole.outcome StreamConsole.finish
  rw [hall]
  cases result <;> rfl

theorem outcome_receives {received : σ → List UInt8} (h : w.Receives received) :
    ∃ part, part <+: t.bytes ∧
      received ((t.through w output).outcome w result).output = received output ++ part := by
  obtain ⟨part, hpart, hreceived⟩ := h.writeAll_prefix output t.texts
  rw [t.flatMap_texts] at hpart
  refine ⟨part, hpart, hreceived ▸ ?_⟩
  unfold Transcript.through StreamConsole.written StreamConsole.outcome StreamConsole.finish
  cases result with
  | error f => rfl
  | ok steps =>
    rcases w.writeAll output t.texts with ⟨_ | reason, s⟩
    · have hflush := h.flush s
      rcases hanswer : w.flush s with ⟨_ | reason, u⟩
      all_goals
        rw [hanswer] at hflush
        simpa [hanswer] using hflush
    · rfl

end outcome

/-- The run of a file hides no output that is lost. It is refused before the program has taken a
step, or the program takes the steps that it takes when nothing is lost, whatever the writer does.
It is called a success exactly if the program ends and every text is written and flushed; the number
is that of the steps. From the first write that fails nothing is written, and the run says why that
write failed, or why the program did. -/
theorem lost_output_never_hidden {σ : Type} (w : Writer σ) (assembler : Assembler)
    (readText : String → Except FileError String) (l : Launch) (input : List UInt8) (output : σ)
    (fuel : Nat) (outcome : RunOutcome σ)
    (hrun : runFile w assembler readText l input output fuel = some outcome) :
    (∃ e, loadFile assembler readText l = .error e ∧ outcome = ⟨.error e, output⟩) ∨
    ∃ m n last, loadFile assembler readText l = .ok m ∧
      m.EndsAt Transcript.console { input } n last ∧
      m.EndsAt (StreamConsole.console w) { input, output } n
        ⟨last.result, last.machine, last.console.through w output⟩ ∧
      (∀ k, m.stepsOn (StreamConsole.console w) { input, output } k =
        (m.stepsOn Transcript.console { input } k).map fun (m, t) => (m, t.through w output)) ∧
      (∀ steps, outcome.result = .ok steps ↔ last.result = .ok true ∧ steps = n + 1 ∧
        ∃ s, w.writeAll output last.console.texts = (none, s) ∧
          w.flush s = (none, outcome.output)) ∧
      (∀ written lost rest reason u, last.console.texts = written ++ lost :: rest →
        w.FailsAt output written lost reason u →
        outcome.output = u ∧
        outcome.result = .error (match last.result with
          | .error f => .fault f
          | .ok _ => .output reason)) ∧
      ∀ received, w.Receives received →
        (∃ part, part <+: last.console.bytes ∧
          received outcome.output = received output ++ part) ∧
        ∀ steps, outcome.result = .ok steps →
          received outcome.output = received output ++ last.console.bytes := by
  rw [runFile_eq] at hrun
  cases hload : loadFile assembler readText l with
  | error e =>
    rw [hload] at hrun
    exact Or.inl ⟨e, rfl, (Option.some.inj hrun).symm⟩
  | ok m =>
    rw [hload] at hrun
    obtain ⟨⟨result, m', t⟩, hover, rfl⟩ := Option.map_eq_some_iff.mp hrun
    obtain ⟨n, last, hends, rfl, rfl⟩ := Machine.endsAt_of_runToEnd rfl hover
    have hshows := Transcript.shows_through w output
    refine Or.inr ⟨m, n, last, rfl, hends, hends.shows hshows,
      fun k => hshows.stepsOn m { input } k, ?_, ?_, ?_⟩
    · intro steps
      exact outcome_eq_ok_iff.trans (by rw [hends.map_result_eq_ok_iff, and_assoc])
    · intro written lost rest reason u htexts hfails
      simp only [outcome_of_failsAt htexts hfails, true_and]
      cases last.result <;> rfl
    · intro received hreceives
      refine ⟨outcome_receives hreceives, fun steps hsteps => ?_⟩
      obtain ⟨-, s, hwritten, hflush⟩ := outcome_eq_ok_iff.mp hsteps
      have hkept := hreceives.flush s
      rw [hflush] at hkept
      rw [hkept, hreceives.writeAll hwritten, Transcript.flatMap_texts]

theorem TextSink.receives : writer.Receives fun s => Text.utf8Encode s.written where
  whole s text hwritten := by
    simp only [writer, write] at hwritten ⊢
    split at hwritten
    · simp [Text.utf8Encode_append]
    · split at hwritten
      · simp_all [Text.utf8Encode_append]
      · cases hwritten
  part s text := by
    simp only [writer, write]
    split
    · exact ⟨_, List.prefix_refl _, Text.utf8Encode_append _ _⟩
    · split
      · exact ⟨_, List.prefix_refl _, Text.utf8Encode_append _ _⟩
      · exact ⟨[], List.nil_prefix, (List.append_nil _).symm⟩
  flush _ := rfl

/-- Writes a short line, a long one and a short one. -/
def threeLines : String :=
  "M START\n OUT A,ONE\n OUT B,FOUR\n OUT A,ONE\n RET\n" ++
  "A DC 'a'\nB DC 'long'\nONE DC 1\nFOUR DC 4\n END\n"

/-- The long line does not fit. The short one behind it would, but is not written any more. -/
theorem long_line_lost : ∃ outcome m n last,
    runFile TextSink.writer assemble (fun _ => .ok threeLines) { program := "p.cas" } []
      { limit := some (4, "full") } 400 = some outcome ∧
    outcome.result = .error (.output "full") ∧ outcome.output.written = "a\n" ∧
    loadFile assemble (fun _ => .ok threeLines) { program := "p.cas" } = .ok m ∧
    m.EndsAt Transcript.console { input := [] } n last ∧
    Text.utf8Encode "a\n" <+: last.console.bytes := by
  have hrun : ((runFile TextSink.writer assemble (fun _ => .ok threeLines) { program := "p.cas" } []
      { limit := some (4, "full") } 400).map fun o =>
        (match o.result with | .error e => some e | .ok _ => none, o.output.written)) =
      some (some (.output "full"), "a\n") := by decide +kernel
  obtain ⟨outcome, hrun, htells⟩ := Option.map_eq_some_iff.mp hrun
  obtain ⟨hresult, hwritten⟩ := Prod.mk.inj htells
  replace hresult : outcome.result = .error (.output "full") := by
    cases h : outcome.result with
    | error e => rw [h] at hresult; rw [Option.some.inj hresult]
    | ok steps => rw [h] at hresult; cases hresult
  rcases lost_output_never_hidden TextSink.writer assemble (fun _ => .ok threeLines)
    { program := "p.cas" } [] { limit := some (4, "full") } 400 outcome hrun with
    ⟨e, -, rfl⟩ | ⟨m, n, last, hload, hends, -, -, -, -, hreceives⟩
  · simp at hwritten
  · obtain ⟨⟨part, hpart, hreceived⟩, -⟩ := hreceives _ TextSink.receives
    refine ⟨outcome, m, n, last, hrun, hresult, hwritten, hload, hends, ?_⟩
    rw [← hwritten, hreceived]
    simpa [Text.utf8Encode_eq_flatMap ""] using hpart

end Comet
