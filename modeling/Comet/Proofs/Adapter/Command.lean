import Comet.Adapter.Server
import Comet.Proofs.Debug.Request
import Comet.Proofs.Debug.Waiting

namespace Comet.Adapter

/-- A request as a client has sent it. -/
structure ClientRequest where
  seq : Nat
  command : String
  arguments : Option Json

namespace ClientRequest

/-- The program that a request names as the one to launch. -/
def program? (r : ClientRequest) : Option String :=
  if r.command = "launch" then (r.arguments.bind launch?).map (·.program) else none

/-- A request that has nothing to do with the program that the server names. -/
structure Plain (r : ClientRequest) : Prop where
  unnamed : r.program? = none
  untraced : r.command ≠ "stackTrace"

theorem Plain.of_ne {n : Nat} {command : String} {v : Option Json} (hlaunch : command ≠ "launch")
    (htrace : command ≠ "stackTrace") : Plain ⟨n, command, v⟩ :=
  ⟨if_neg hlaunch, htrace⟩

/-- The file whose breakpoints are placed, and the lines, as the client counts them. -/
def placing? (r : ClientRequest) : Option (String × List Int) :=
  if r.command = "setBreakpoints" then
    (r.arguments.bind breakpoints?).bind fun b => b.path.map (·, b.lines)
  else none

/-- Whether lines start at one from now on, if the request says so. -/
def linesStartAt1? (r : ClientRequest) : Option Bool :=
  if r.command = "initialize" then
    (Server.argumentsD "initialize" none Adapter.linesStartAt1? r.arguments).toOption.map
      (·.getD true)
  else none

/-- What the request comes to for the session, if anything. -/
def session? (r : ClientRequest) (h : Host) (s : Server) : Option Session.Request :=
  match r.command with
  | "launch" => (r.arguments.bind launch?).map fun l => .launch h.readText l
  | "setBreakpoints" => r.placing?.map fun (path, lines) =>
      .setBreakpoints h.readText path (lines.map s.fromClient)
  | "continue" => some .run
  | "next" => some .next
  | "stepIn" => some .stepIn
  | "stepOut" => some .stepOut
  | "evaluate" => (r.arguments.bind evaluate?).map fun e =>
      .evaluate e.expression (.ofName e.context)
  | _ => none

/-- The request makes a program that is stopped go on. -/
def Resumes (r : ClientRequest) : Prop :=
  r.command ∈ ["continue", "next", "stepIn", "stepOut"]

end ClientRequest

namespace Server

/-- What a request does to whatever server it is sent to. -/
inductive Effect (h : Host) (r : ClientRequest) : (Server → Option (Answer × Server)) → Prop
  | told (hplain : r.Plain) (answer : Answer) : Effect h r fun s => some (answer, s)
  | configured (hplain : r.Plain) (answer : Answer) (linesStartAt1 : Bool) :
      Effect h r fun s => some (answer, { s with linesStartAt1 })
  | listed (hplain : r.Plain) : Effect h r fun s => some (s.variablesIn r.arguments, s)
  | marked (hplain : r.Plain) (path : String) (lines : List Int) :
      Effect h r fun s =>
        let (breakpoints, session) :=
          s.session.setBreakpoints h.readText path (lines.map s.fromClient)
        some (.ok (some (Json.object [("breakpoints", .arr (breakpoints.map s.breakpointJson))])),
          { s with session })
  | asked (hplain : r.Plain) {α : Type} (q : Session.Request)
      (request : Session → Option (Except Session.Error α × Session))
      (hframed : Session.Framed request)
      (hafter : ∀ s : Session, s.after h.assembler q h.fuel = (request s).map (·.2))
      (body : α → Option Json) : Effect h r fun s => (request s.session).map (s.answerWith body)
  | traced (hunnamed : r.program? = none) (htraced : r.command = "stackTrace") :
      Effect h r fun s => some (s.stackTrace r.arguments, s)
  | launched (l : Launch) (hnamed : r.program? = some l.program)
      (huntraced : r.command ≠ "stackTrace") :
      Effect h r fun s => (s.session.launch h.assembler h.readText l h.fuel).map
        ({ s with program := some l.program }.answerWith fun _ => none)

/-- A proof about every command goes through the commands by their names. -/
@[elab_as_elim]
theorem command_cases {motive : String → Prop} (onInitialize : motive "initialize")
    (onLaunch : motive "launch") (onSetBreakpoints : motive "setBreakpoints")
    (onConfigurationDone : motive "configurationDone") (onThreads : motive "threads")
    (onStackTrace : motive "stackTrace") (onScopes : motive "scopes")
    (onVariables : motive "variables") (onContinue : motive "continue") (onNext : motive "next")
    (onStepIn : motive "stepIn") (onStepOut : motive "stepOut") (onEvaluate : motive "evaluate")
    (onDisconnect : motive "disconnect")
    (other : ∀ command, command ≠ "initialize" → command ≠ "launch" →
      command ≠ "setBreakpoints" → command ≠ "configurationDone" → command ≠ "threads" →
      command ≠ "stackTrace" → command ≠ "scopes" → command ≠ "variables" →
      command ≠ "continue" → command ≠ "next" → command ≠ "stepIn" → command ≠ "stepOut" →
      command ≠ "evaluate" → command ≠ "disconnect" → motive command) (command : String) :
    motive command :=
  perform.fun_cases motive onInitialize onLaunch onSetBreakpoints onConfigurationDone onThreads
    onStackTrace onScopes onVariables onContinue onNext onStepIn onStepOut onEvaluate
    onDisconnect other command

/-- Every request does one of these things. -/
theorem perform_effect (h : Host) (r : ClientRequest) :
    ∃ f, Effect h r f ∧ ∀ s : Server, s.perform h r.command r.arguments = f s := by
  obtain ⟨n, command, v⟩ := r
  cases command using command_cases with
  | onInitialize =>
    have hplain : ClientRequest.Plain ⟨n, "initialize", v⟩ := .of_ne (by decide) (by decide)
    cases hbase : argumentsD "initialize" none linesStartAt1? v with
    | error e =>
      refine ⟨_, .told hplain (.error e), fun s => ?_⟩
      simp only [perform, configure, hbase]
    | ok base =>
      refine ⟨_, .configured hplain (.ok (some capabilities)) (base.getD true), fun s => ?_⟩
      simp only [perform, configure, hbase]
  | onLaunch =>
    have huntraced : "launch" ≠ "stackTrace" := by decide
    cases hl : v.bind launch? with
    | none =>
      have hplain : ClientRequest.Plain ⟨n, "launch", v⟩ :=
        ⟨by simp [ClientRequest.program?, hl], huntraced⟩
      refine ⟨_, .told hplain (.error (.invalidArguments "launch")), fun s => ?_⟩
      simp only [perform, launch, arguments, hl]
    | some l =>
      have hnamed : ClientRequest.program? ⟨n, "launch", v⟩ = some l.program := by
        simp [ClientRequest.program?, hl]
      refine ⟨_, .launched l hnamed huntraced, fun s => ?_⟩
      simp only [perform, launch, arguments, hl]
  | onSetBreakpoints =>
    have hplain : ClientRequest.Plain ⟨n, "setBreakpoints", v⟩ := .of_ne (by decide) (by decide)
    cases hrequest : arguments "setBreakpoints" breakpoints? v with
    | error e =>
      refine ⟨_, .told hplain (.error e), fun s => ?_⟩
      simp only [perform, setBreakpoints, hrequest]
    | ok request =>
      cases hpath : request.path with
      | none =>
        refine ⟨_, .told hplain (.error (.invalidArguments "setBreakpoints")), fun s => ?_⟩
        simp only [perform, setBreakpoints, hrequest, hpath]
      | some path =>
        refine ⟨_, .marked hplain path request.lines, fun s => ?_⟩
        simp only [perform, setBreakpoints, hrequest, hpath]
  | onConfigurationDone | onDisconnect =>
    exact ⟨_, .told (.of_ne (by decide) (by decide)) (.ok none), fun s => rfl⟩
  | onThreads =>
    exact ⟨_, .told (.of_ne (by decide) (by decide)) (.ok (some threads)), fun s => rfl⟩
  | onStackTrace =>
    have hlaunch : "stackTrace" ≠ "launch" := by decide
    exact ⟨_, .traced (if_neg hlaunch) rfl, fun s => rfl⟩
  | onScopes =>
    exact ⟨_, .told (.of_ne (by decide) (by decide)) (.ok (some scopes)), fun s => rfl⟩
  | onVariables => exact ⟨_, .listed (.of_ne (by decide) (by decide)), fun s => rfl⟩
  | onContinue =>
    exact ⟨_, .asked (.of_ne (by decide) (by decide)) .run (·.run h.fuel)
      (Session.resume_framed .run h.fuel) (fun s => rfl) _, fun s => rfl⟩
  | onNext =>
    exact ⟨_, .asked (.of_ne (by decide) (by decide)) .next (·.next h.fuel)
      (Session.resume_framed .next h.fuel) (fun s => rfl) _, fun s => rfl⟩
  | onStepIn =>
    exact ⟨_, .asked (.of_ne (by decide) (by decide)) .stepIn (·.stepIn h.fuel)
      (Session.resume_framed .stepIn h.fuel) (fun s => rfl) _, fun s => rfl⟩
  | onStepOut =>
    exact ⟨_, .asked (.of_ne (by decide) (by decide)) .stepOut (·.stepOut h.fuel)
      (Session.stepOut_framed h.fuel) (fun s => rfl) _, fun s => rfl⟩
  | onEvaluate =>
    have hplain : ClientRequest.Plain ⟨n, "evaluate", v⟩ := .of_ne (by decide) (by decide)
    cases hrequest : arguments "evaluate" evaluate? v with
    | error e =>
      refine ⟨_, .told hplain (.error e), fun s => ?_⟩
      simp only [perform, evaluate, hrequest]
    | ok request =>
      let context := Session.EvaluateContext.ofName request.context
      refine ⟨_, .asked hplain (.evaluate request.expression context)
        (·.evaluate request.expression context h.fuel)
        (Session.evaluate_framed request.expression context h.fuel) (fun s => rfl)
        (fun e => some (evaluationJson e)), fun s => ?_⟩
      simp only [perform, evaluate, hrequest]
      rfl
  | other command hinitialize hlaunch hbreakpoints hdone hthreads htrace =>
    refine ⟨_, .told (.of_ne hlaunch htrace) (.error (.unsupportedCommand command)), fun s => ?_⟩
    simp only [perform]

section inversion

variable {h : Host} {s t : Server} {r : ClientRequest} {answer : Answer}

theorem map_snd_of_answerWith {α : Type} {body : α → Option Json}
    {reply : Option (Except Session.Error α × Session)}
    (hanswer : reply.map (s.answerWith body) = some (answer, t)) :
    t.linesStartAt1 = s.linesStartAt1 ∧ reply.map (·.2) = some t.session := by
  obtain ⟨run, rfl, hsame⟩ := Option.map_eq_some_iff.mp hanswer
  obtain ⟨-, rfl⟩ := Prod.mk.inj hsame
  exact ⟨rfl, rfl⟩

/-- A request does nothing but to say how lines are counted, or to make its one request of the
session. -/
theorem perform_inversion (hperform : s.perform h r.command r.arguments = some (answer, t)) :
    t.linesStartAt1 = r.linesStartAt1?.getD s.linesStartAt1 ∧
      ((r.session? h s = none ∧ t.session = s.session) ∨
        ∃ q, r.session? h s = some q ∧
          s.session.after h.assembler q h.fuel = some t.session) := by
  obtain ⟨n, command, v⟩ := r
  cases command using command_cases with
  | onInitialize =>
    simp only [perform, configure, Option.some.injEq] at hperform
    simp only [ClientRequest.linesStartAt1?, ClientRequest.session?, if_true]
    cases hbase : argumentsD "initialize" none linesStartAt1? v with
    | error e | ok base =>
      rw [hbase] at hperform
      cases hperform
      exact ⟨rfl, Or.inl ⟨rfl, rfl⟩⟩
  | onLaunch =>
    simp only [perform, launch, arguments] at hperform
    simp only [ClientRequest.linesStartAt1?, ClientRequest.session?, String.reduceEq, if_false]
    cases hl : v.bind launch? with
    | none =>
      rw [hl] at hperform
      cases hperform
      exact ⟨rfl, Or.inl ⟨rfl, rfl⟩⟩
    | some l =>
      rw [hl] at hperform
      obtain ⟨hlines, hafter⟩ := map_snd_of_answerWith hperform
      exact ⟨hlines, Or.inr ⟨_, rfl, hafter⟩⟩
  | onSetBreakpoints =>
    simp only [perform, setBreakpoints, arguments] at hperform
    simp only [ClientRequest.linesStartAt1?, ClientRequest.session?, ClientRequest.placing?,
      String.reduceEq, if_false, if_true]
    cases hrequest : v.bind breakpoints? with
    | none =>
      rw [hrequest] at hperform
      cases hperform
      exact ⟨rfl, Or.inl ⟨rfl, rfl⟩⟩
    | some request =>
      cases hpath : request.path with
      | none =>
        simp only [hrequest, hpath] at hperform
        cases hperform
        simp [hpath]
      | some path =>
        simp only [hrequest, hpath] at hperform
        cases hperform
        simp [hpath, Session.after]
  | onContinue | onNext | onStepIn | onStepOut =>
    obtain ⟨hlines, hafter⟩ := map_snd_of_answerWith hperform
    exact ⟨hlines, Or.inr ⟨_, rfl, hafter⟩⟩
  | onEvaluate =>
    simp only [perform, evaluate, arguments] at hperform
    simp only [ClientRequest.linesStartAt1?, ClientRequest.session?, String.reduceEq, if_false]
    cases hrequest : v.bind evaluate? with
    | none =>
      rw [hrequest] at hperform
      cases hperform
      exact ⟨rfl, Or.inl ⟨rfl, rfl⟩⟩
    | some request =>
      rw [hrequest] at hperform
      obtain ⟨hlines, hafter⟩ := map_snd_of_answerWith hperform
      exact ⟨hlines, Or.inr ⟨_, rfl, hafter⟩⟩
  | onConfigurationDone | onThreads | onStackTrace | onScopes | onVariables | onDisconnect =>
    simp only [perform, Option.some.injEq, Prod.mk.injEq] at hperform
    obtain ⟨-, rfl⟩ := hperform
    exact ⟨rfl, Or.inl ⟨rfl, rfl⟩⟩
  | other command hinitialize =>
    have hcommand : command ≠ "initialize" := hinitialize
    simp only [perform, Option.some.injEq, Prod.mk.injEq] at hperform
    obtain ⟨-, rfl⟩ := hperform
    simp [ClientRequest.linesStartAt1?, ClientRequest.session?, hcommand]

/-- A request of a client makes at most one request of the session. -/
theorem perform_session (hperform : s.perform h r.command r.arguments = some (answer, t)) :
    t.session = s.session ∨ ∃ q fuel, s.session.after h.assembler q fuel = some t.session := by
  rcases (perform_inversion hperform).2 with ⟨-, hsame⟩ | ⟨q, -, hafter⟩
  · exact Or.inl hsame
  · exact Or.inr ⟨q, h.fuel, hafter⟩

theorem session?_of_placing? {path : String} {lines : List Int}
    (hplaces : r.placing? = some (path, lines)) : r.session? h s =
      some (.setBreakpoints h.readText path (lines.map s.fromClient)) := by
  obtain ⟨hcommand, -⟩ := Option.ite_none_right_eq_some.mp hplaces
  simp only [ClientRequest.session?, hcommand, hplaces, Option.map_some]

/-- What a request of a client may come to for the session. -/
inductive Asks (h : Host) (s : Server) (r : ClientRequest) : Session.Request → Prop
  | launch (l : Launch) (hnamed : r.program? = some l.program) : Asks h s r (.launch h.readText l)
  | setBreakpoints {path : String} {lines : List Int} (hplaces : r.placing? = some (path, lines)) :
      Asks h s r (.setBreakpoints h.readText path (lines.map s.fromClient))
  | run (hresumes : r.Resumes) : Asks h s r .run
  | next (hresumes : r.Resumes) : Asks h s r .next
  | stepIn (hresumes : r.Resumes) : Asks h s r .stepIn
  | stepOut (hresumes : r.Resumes) : Asks h s r .stepOut
  | evaluate (e : EvaluateRequest) : Asks h s r (.evaluate e.expression (.ofName e.context))

theorem asks_of_session? {q : Session.Request} (hq : r.session? h s = some q) : Asks h s r q := by
  obtain ⟨n, command, v⟩ := r
  cases command using command_cases with
  | onLaunch =>
    obtain ⟨l, hl, rfl⟩ := Option.map_eq_some_iff.mp hq
    exact .launch l (Option.map_eq_some_iff.mpr ⟨l, hl, rfl⟩)
  | onSetBreakpoints =>
    obtain ⟨⟨path, lines⟩, hplaces, rfl⟩ := Option.map_eq_some_iff.mp hq
    exact .setBreakpoints hplaces
  | onContinue =>
    cases hq
    exact .run (by simp [ClientRequest.Resumes])
  | onNext =>
    cases hq
    exact .next (by simp [ClientRequest.Resumes])
  | onStepIn =>
    cases hq
    exact .stepIn (by simp [ClientRequest.Resumes])
  | onStepOut =>
    cases hq
    exact .stepOut (by simp [ClientRequest.Resumes])
  | onEvaluate =>
    obtain ⟨e, -, rfl⟩ := Option.map_eq_some_iff.mp hq
    exact .evaluate e
  | onInitialize | onConfigurationDone | onThreads | onStackTrace | onScopes | onVariables |
    onDisconnect => cases hq
  | other => simp [ClientRequest.session?, *] at hq

end inversion

end Server

end Comet.Adapter
