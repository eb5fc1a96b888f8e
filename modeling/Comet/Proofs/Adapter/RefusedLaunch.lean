import Comet.Assembly.Link
import Comet.Proofs.Adapter.Exchange
import Comet.Proofs.Debug.Goal

namespace Comet

/-- The value with that member changed, wherever it is an object that has one. -/
def Json.mapMember (name : String) (f : Json → Json) : Json → Json
  | .obj members => .obj (members.map fun (n, v) => (n, if n = name then f v else v))
  | v => v

namespace Adapter

/-- The body of a stack trace with all its frames in that source. -/
def withSource (source : Json) : Json → Json :=
  Json.mapMember "stackFrames" fun
    | .arr frames => .arr (frames.map (Json.mapMember "source" fun _ => source))
    | v => v

/-- The answer to a command as it is with another source for frames. -/
def Answer.withSource (command : String) (source : Json) (a : Answer) : Answer :=
  if command = "stackTrace" then a.map (Option.map (Adapter.withSource source)) else a

theorem Answer.withSource_of_ne {command : String} (htrace : command ≠ "stackTrace")
    (source : Json) (a : Answer) : a.withSource command source = a := if_neg htrace

/-- The exchanges as they are with another source for frames. A launch that names a program sets the
source for all that come after it. -/
def renamed (source : Json) : List Exchange → List Exchange
  | [] => []
  | x :: xs =>
    if x.request.program?.isSome then x :: xs
    else { x with answer := x.answer.withSource x.request.command source } :: renamed source xs

namespace Server

def withProgram (s : Server) (program : Option String) : Server := { s with program }

section program

variable (s : Server) (program : Option String)

/-- The members of an object are in the order of their names. -/
theorem stackTraceJson_eq (frames : List Json) (total : Nat) :
    Json.object [("stackFrames", .arr frames), ("totalFrames", .ofNat total)] =
      .obj [("stackFrames", .arr frames), ("totalFrames", .ofNat total)] := by
  simp only [Json.object, List.foldl_cons, List.foldl_nil, Json.insertMember, String.reduceLT,
    String.reduceEq, if_false]

theorem sourceJson_eq (name path : String) :
    Json.object [("name", .str name), ("path", .str path)] =
      .obj [("name", .str name), ("path", .str path)] := by
  simp only [Json.object, List.foldl_cons, List.foldl_nil, Json.insertMember, String.reduceLT,
    String.reduceEq, if_false]

theorem frameJson_eq (f : Session.FrameView) : s.frameJson f =
    .obj [("column", .ofNat (if s.linesStartAt1 then 1 else 0)), ("id", .ofNat f.id),
      ("line", .ofNat (s.toClient f.line)), ("name", .str f.name), ("source", s.source)] := by
  simp only [frameJson, Json.object, List.foldl_cons, List.foldl_nil, Json.insertMember,
    String.reduceLT, String.reduceEq, if_true, if_false]

theorem frameJson_withProgram (f : Session.FrameView) : (s.withProgram program).frameJson f =
    Json.mapMember "source" (fun _ => (s.withProgram program).source) (s.frameJson f) := by
  simp [frameJson_eq, Json.mapMember, withProgram, toClient]

theorem stackTrace_withProgram (v : Option Json) : (s.withProgram program).stackTrace v =
    (s.stackTrace v).map (Option.map (withSource (s.withProgram program).source)) := by
  have hframes (frames : List Session.FrameView) :
      frames.map (s.withProgram program).frameJson = (frames.map s.frameJson).map
        (Json.mapMember "source" fun _ => (s.withProgram program).source) := by
    simp [frameJson_withProgram]
  unfold stackTrace
  cases argumentsD "stackTrace" {} frameRange? v with
  | error e => rfl
  | ok range =>
    simp only [Except.map, hframes, stackTraceJson_eq]
    simp [withSource, Json.mapMember, withProgram]

/-- The program that a server names changes nothing but the source of frames. It is forgotten with
the next launch that names one. -/
theorem perform_withProgram (h : Host) (r : ClientRequest) :
    (s.withProgram program).perform h r.command r.arguments =
      (s.perform h r.command r.arguments).map fun (answer, t) =>
        (answer.withSource r.command (s.withProgram program).source,
          if r.program?.isSome then t else t.withProgram program) := by
  obtain ⟨f, heffect, hf⟩ := perform_effect h r
  rw [hf, hf]
  cases heffect with
  | told hplain | configured hplain | listed hplain | marked hplain =>
    simp only [hplain.unnamed, Answer.withSource_of_ne hplain.untraced]
    rfl
  | asked hplain =>
    simp only [hplain.unnamed, Answer.withSource_of_ne hplain.untraced, Option.map_map]
    rfl
  | traced hunnamed htraced =>
    simp only [stackTrace_withProgram, hunnamed, htraced, Answer.withSource, if_true]
    rfl
  | launched l hnamed huntraced =>
    simp only [hnamed, Answer.withSource_of_ne huntraced, Option.map_map]
    rfl

end program

section runs

variable {h : Host} {s t : Server} {x : Exchange} {xs : List Exchange}

theorem Performs.withProgram (hperforms : s.Performs h x t) (program : Option String) :
    (s.withProgram program).Performs h
      { x with answer := x.answer.withSource x.request.command (s.withProgram program).source }
      (if x.request.program?.isSome then t else t.withProgram program) := by
  intro seq waiting
  have hperform := perform_withProgram (s.withOutgoing seq waiting) program h x.request
  rw [hperforms seq waiting] at hperform
  refine hperform.trans ?_
  cases x.request.program?.isSome <;> rfl

theorem Answer.withSource_of_program? {r : ClientRequest} (hnamed : r.program?.isSome = true)
    (source : Json) (answer : Answer) : answer.withSource r.command source = answer := by
  have htrace : r.command ≠ "stackTrace" := by
    intro htrace
    simp [ClientRequest.program?, htrace] at hnamed
  exact Answer.withSource_of_ne htrace source answer

theorem Exchanges.withProgram (hxs : Exchanges h s xs) (program : Option String) :
    Exchanges h (s.withProgram program) (renamed (s.withProgram program).source xs) := by
  induction hxs with
  | nil s => exact .nil _
  | @cons s t x xs hfirst hrest ih =>
    have hfirst' := hfirst.withProgram program
    rw [renamed]
    cases hnamed : x.request.program?.isSome with
    | true =>
      simp only [hnamed, if_true, Answer.withSource_of_program? hnamed] at hfirst' ⊢
      exact .cons hfirst' hrest
    | false =>
      simp only [hnamed, Bool.false_eq_true, if_false] at hfirst' ⊢
      exact .cons hfirst' ih

@[simp] theorem renamed_requests (source : Json) (xs : List Exchange) :
    (renamed source xs).map (·.request) = xs.map (·.request) := by
  induction xs with
  | nil => rfl
  | cons x xs ih =>
    rw [renamed]
    split
    · rfl
    · rw [List.map_cons, List.map_cons, ih]

/-- A server that names that program already goes on as it is. -/
theorem Exchanges.renamed_eq (hxs : Exchanges h s xs) : renamed s.source xs = xs := by
  induction hxs with
  | nil s => rfl
  | @cons s t x xs hfirst hrest ih =>
    have hself := perform_withProgram (s.withOutgoing 0 #[]) s.program h x.request
    have hsame : (s.withOutgoing 0 #[]).withProgram s.program = s.withOutgoing 0 #[] := rfl
    rw [hsame, hfirst 0 #[], Option.map_some, Option.some.injEq, Prod.mk.injEq] at hself
    obtain ⟨hanswer, hserver⟩ := hself
    rw [renamed]
    cases hnamed : x.request.program?.isSome with
    | true => rfl
    | false =>
      simp only [hnamed, Bool.false_eq_true, if_false] at hserver ⊢
      have hprogram : t.program = s.program := congrArg (·.program) hserver
      have hsource : t.source = s.source := by rw [source, source, hprogram]
      rw [← hsource, ih, hsource]
      exact congrArg (fun answer => { x with answer } :: xs) hanswer.symm

end runs

/-- A server that has answered requests so far, each with the files as they were then, and none of
them a `disconnect`. -/
inductive Reached (assembler : Assembler) : Server → Prop
  | start : Reached assembler {}
  | handled {s t : Server} {sent : List Message} (h : Host) (r : ClientRequest)
      (hs : Reached assembler s) (hassembler : h.assembler = assembler)
      (hstays : r.command ≠ "disconnect")
      (hhandle : s.handle h r.seq r.command r.arguments = some (sent, t)) : Reached assembler t

section reached

variable {assembler : Assembler} {s : Server}

/-- Between requests no event waits. -/
theorem Reached.events (hs : Reached assembler s) : s.session.events = #[] := by
  induction hs with
  | start => rfl
  | handled h r hs hassembler hstays hhandle ih =>
    obtain ⟨x, t, -, -, -, rfl⟩ := (handle_eq_some_iff ih).mp hhandle
    rfl

theorem Reached.session (hs : Reached assembler s) : Session.Reaches assembler {} s.session := by
  induction hs with
  | start => exact .refl
  | @handled s _ sent h r hs hassembler hstays hhandle ih =>
    obtain ⟨x, t, rfl, hperforms, -, rfl⟩ := (handle_eq_some_iff hs.events).mp hhandle
    have hperformed : Session.Reaches assembler {}
        (t.withOutgoing s.seq x.events.toArray).session := by
      rcases perform_session (hperforms.perform hs.events) with hsame | ⟨request, fuel, hafter⟩
      · rw [hsame]
        exact ih
      · rw [hassembler] at hafter
        exact ih.tail request fuel hafter
    exact hperformed.tail .takeEvents 0 rfl

end reached

section terminated

variable {h : Host} {s t : Server} {x : Exchange} {xs : List Exchange}

theorem Performs.terminated (hperforms : s.Performs h x t) (hs : s.session.state = .terminated) :
    t.session.state = .terminated := by
  have hstate : (s.withOutgoing 0 #[]).session.state = .terminated := hs
  rcases perform_session (hperforms 0 #[]) with hsame | ⟨r, fuel, hafter⟩
  · have hkept : t.session.state = s.session.state := congrArg (·.state) hsame
    rw [hkept, hs]
  · have hover := Session.after_of_terminated hstate hafter
    exact hover

/-- A session that is over has no frames, and so no sources. -/
theorem stackTrace_of_terminated (hs : s.session.state = .terminated) (source : Json)
    (v : Option Json) :
    (s.stackTrace v).map (Option.map (withSource source)) = s.stackTrace v := by
  unfold stackTrace
  cases argumentsD "stackTrace" {} frameRange? v with
  | error e => rfl
  | ok range =>
    simp [Except.map, Session.stackTrace, Session.currentLine, hs, stackTraceJson_eq, withSource,
      Json.mapMember]

theorem Exchanges.renamed_of_terminated (hxs : Exchanges h s xs)
    (hs : s.session.state = .terminated) (source : Json) : renamed source xs = xs := by
  induction hxs with
  | nil s => rfl
  | @cons s t x xs hfirst hrest ih =>
    rw [renamed, ih (hfirst.terminated hs)]
    cases x.request.program?.isSome with
    | true => rfl
    | false =>
      have hanswer : x.answer.withSource x.request.command source = x.answer := by
        by_cases htrace : x.request.command = "stackTrace"
        · have hperform := hfirst 0 #[]
          rw [htrace] at hperform ⊢
          simp only [perform, Option.some.injEq, Prod.mk.injEq] at hperform
          rw [← hperform.1]
          exact stackTrace_of_terminated hs source x.request.arguments
        · exact Answer.withSource_of_ne htrace source x.answer
      simp only [Bool.false_eq_true, if_false, hanswer]

end terminated

/-- What a launch gets once a program has been launched: an error, and no events. -/
def refusedLaunch (n : Nat) (v : Option Json) : Exchange :=
  { request := ⟨n, "launch", v⟩
    answer := .error (match v.bind launch? with
      | some _ => .session .alreadyLaunched
      | none => .invalidArguments "launch")
    events := [] }

/-- The exchanges as they are behind a refused launch with these arguments. -/
def behindRefused (v : Option Json) (xs : List Exchange) : List Exchange :=
  match v.bind launch? with
  | some l => renamed (source { program := some l.program }) xs
  | none => xs

/-- The server behind a refused launch. -/
def refused (s : Server) (v : Option Json) : Server :=
  match v.bind launch? with
  | some l => s.withProgram (some l.program)
  | none => s

section refused

variable {h : Host} {s : Server} {n : Nat} {v : Option Json} {xs : List Exchange}

theorem performs_refusedLaunch (hlaunched : s.session.state ≠ .idle) :
    s.Performs h (refusedLaunch n v) (s.refused v) := by
  intro seq waiting
  have hstate : (s.withOutgoing seq waiting).session.state ≠ .idle := hlaunched
  simp only [refusedLaunch, perform, launch, arguments, refused]
  cases v.bind launch? with
  | none => simp
  | some l =>
    simp only [Session.launch, if_pos hstate, Option.map_some]
    simp [answerWith, withProgram, withOutgoing]

theorem Exchanges.refused (hxs : Exchanges h s xs) (v : Option Json) :
    Exchanges h (s.refused v) (behindRefused v xs) := by
  simp only [Server.refused, behindRefused]
  cases v.bind launch? with
  | none => exact hxs
  | some l => exact hxs.withProgram (some l.program)

/-- Whatever can be answered behind a refused launch could be answered without it. -/
theorem Exchanges.of_refused (hxs : Exchanges h (s.refused v) xs) :
    ∃ ys, ys.map (·.request) = xs.map (·.request) ∧ Exchanges h s ys := by
  simp only [Server.refused] at hxs
  cases hl : v.bind launch? with
  | none =>
    simp only [hl] at hxs
    exact ⟨xs, rfl, hxs⟩
  | some l =>
    simp only [hl] at hxs
    have hback := hxs.withProgram s.program
    exact ⟨_, renamed_requests _ xs, hback⟩

theorem serve_refusedLaunch (hempty : s.session.events = #[]) (hlaunched : s.session.state ≠ .idle)
    (type : String) (stream : List Incoming) :
    s.serve h (.message ⟨n, type, .request "launch" v⟩ :: stream) =
      (((s.refused v).withOutgoing (s.seq + 1) #[]).serve h stream).map fun (more, e) =>
        (number s.seq (refusedLaunch n v).contents ++ more, e) := by
  have hrequest : Incoming.request? (.message ⟨n, type, .request "launch" v⟩) =
      some (refusedLaunch n v).request := rfl
  rw [serve_request hrequest, handle_of_performs hempty (performs_refusedLaunch hlaunched)]
  rfl

/-- With and without a refused launch in front of it, a stream of requests is answered by the same
exchanges apart from the sources of frames, or cannot be answered at all. -/
theorem serve_behind_refused (hempty : s.session.events = #[])
    (hlaunched : s.session.state ≠ .idle) (type : String) (stream : List Incoming) :
    (s.serve h stream = none ∧
      s.serve h (.message ⟨n, type, .request "launch" v⟩ :: stream) = none) ∨
    ∃ xs failure, xs.map (·.request) = requests stream ∧ Exchanges h s xs ∧
      s.serve h stream = some (number s.seq (xs.flatMap Exchange.contents), failure) ∧
      s.serve h (.message ⟨n, type, .request "launch" v⟩ :: stream) =
        some (number s.seq ((refusedLaunch n v :: behindRefused v xs).flatMap Exchange.contents),
          failure) := by
  rw [serve_refusedLaunch hempty hlaunched]
  cases hserve : s.serve h stream with
  | none =>
    refine Or.inl ⟨rfl, ?_⟩
    cases hrefused : ((s.refused v).withOutgoing (s.seq + 1) #[]).serve h stream with
    | none => rfl
    | some run =>
      obtain ⟨more, failure⟩ := run
      obtain ⟨hfailure, ys, hys, hexchanges, -⟩ := (serve_eq_some_iff rfl).mp hrefused
      obtain ⟨xs, hxs, hwithout⟩ := (exchanges_withOutgoing_iff.mp hexchanges).of_refused
      have hsome := (serve_eq_some_iff hempty).mpr ⟨hfailure, xs, hxs.trans hys, hwithout, rfl⟩
      rw [hserve] at hsome
      cases hsome
  | some run =>
    obtain ⟨sent, failure⟩ := run
    obtain ⟨hfailure, xs, hxs, hexchanges, rfl⟩ := (serve_eq_some_iff hempty).mp hserve
    refine Or.inr ⟨xs, failure, hxs, hexchanges, rfl, ?_⟩
    have hrequests : (behindRefused v xs).map (·.request) = requests stream := by
      rw [← hxs, behindRefused]
      split
      · exact renamed_requests _ xs
      · rfl
    have hbehind : ((s.refused v).withOutgoing (s.seq + 1) #[]).serve h stream =
        some (number (s.seq + 1) ((behindRefused v xs).flatMap Exchange.contents), failure) :=
      (serve_eq_some_iff rfl).mpr ⟨hfailure, _, hrequests,
        exchanges_withOutgoing_iff.mpr (hexchanges.refused v), rfl⟩
    rw [hbehind, Option.map_some, List.flatMap_cons, number_append]
    rfl

end refused

/-- A message without its number. -/
def unnumbered (m : Message) : String × Content := (m.type, m.content)

/-- Whatever comes behind the message is answered as it would have been without it, up to the
numbers of messages. What is sent first is the response to the message itself. -/
def LeavesNoTrace (s : Server) (h : Host) (i : Incoming) : Prop :=
  ∀ stream, (s.serve h (i :: stream)).map (fun (sent, e) => (sent.tail.map unnumbered, e)) =
    (s.serve h stream).map fun (sent, e) => (sent.map unnumbered, e)

section trace

variable {assembler : Assembler} {h : Host} {s : Server} {n : Nat} {type : String} {v : Option Json}

theorem map_unnumbered_number (n : Nat) (contents : List Content) :
    (number n contents).map unnumbered = contents.map fun c => (messageType c, c) := by
  induction contents generalizing n with
  | nil => rfl
  | cons c contents ih => simp [number, unnumbered, ih]

theorem tail_refusedLaunch (xs : List Exchange) (seq : Nat) :
    (number seq ((refusedLaunch n v :: xs).flatMap Exchange.contents)).tail =
      number (seq + 1) (xs.flatMap Exchange.contents) := rfl

theorem leavesNoTrace_of_behindRefused (hempty : s.session.events = #[])
    (hlaunched : s.session.state ≠ .idle)
    (hsame : ∀ xs, Exchanges h s xs → behindRefused v xs = xs) :
    s.LeavesNoTrace h (.message ⟨n, type, .request "launch" v⟩) := by
  intro stream
  rcases serve_behind_refused (n := n) (v := v) hempty hlaunched type stream with
    ⟨hnone, hnone'⟩ | ⟨xs, failure, -, hexchanges, hwithout, hwith⟩
  · rw [hnone, hnone']
    rfl
  · rw [hwithout, hwith, hsame xs hexchanges]
    simp only [Option.map_some, tail_refusedLaunch, map_unnumbered_number]

/-- A server can be asked for a stack trace at any time. -/
theorem performs_stackTrace (s : Server) (n : Nat) (v : Option Json) :
    s.Performs h ⟨⟨n, "stackTrace", v⟩, s.stackTrace v, []⟩ s := by
  intro seq waiting
  rw [List.toArray, Array.append_empty]
  rfl

theorem source_eq_iff {path : String} :
    s.source = source { program := some path } ↔ s.program = some path := by
  constructor
  · intro hsource
    unfold source at hsource
    cases hprogram : s.program with
    | none => simp [hprogram, sourceJson_eq] at hsource
    | some q =>
      simp only [hprogram, sourceJson_eq, Json.obj.injEq, List.cons.injEq, Prod.mk.injEq,
        Json.str.injEq, true_and, and_true] at hsource
      rw [hsource.2]
  · intro hprogram
    rw [source, source, hprogram]

/-- A stack trace tells the source if there is a frame. -/
theorem source_eq_of_stackTrace_eq {program : Option String} {line : Nat}
    (hline : s.session.currentLine = some line) (hdepth : 0 < s.session.depth)
    (hsame : responseContent n "stackTrace" ((s.withProgram program).stackTrace none) =
      responseContent n "stackTrace" (s.stackTrace none)) :
    (s.withProgram program).source = s.source := by
  obtain ⟨f, fs, hframes⟩ : ∃ f fs, s.session.stepper.stack.frames = f :: fs :=
    List.exists_cons_of_length_pos hdepth
  have hbody (s : Server) (hline : s.session.currentLine = some line)
      (hframes : s.session.stepper.stack.frames = f :: fs) :
      ∃ rest, s.stackTrace none = .ok (some (.obj [("stackFrames", .arr (s.frameJson
        ⟨fs.length, f.subroutine, line⟩ :: rest)), ("totalFrames", .ofNat (fs.length + 1))])) := by
    have htrace : s.session.stackTrace 0 none =
        ⟨Session.frameViews line s.session.stepper.stack, fs.length + 1⟩ := by
      simp [Session.stackTrace, hline, CallStack.depth, hframes]
    have hall : argumentsD "stackTrace" {} frameRange? none = .ok {} := rfl
    simp only [stackTrace, hall, Except.map, Option.getD_none, htrace, Session.frameViews, hframes,
      stackTraceJson_eq, List.map_cons]
    exact ⟨_, rfl⟩
  obtain ⟨rest, hwithout⟩ := hbody s hline hframes
  obtain ⟨rest', hwith⟩ := hbody (s.withProgram program) hline hframes
  rw [hwith, hwithout] at hsame
  simp only [responseContent, Content.response.injEq, Option.some.injEq, Json.obj.injEq,
    List.cons.injEq, Prod.mk.injEq, Json.arr.injEq, frameJson_eq, true_and, and_true] at hsame
  obtain ⟨⟨-, -, hsource⟩, -⟩ := hsame
  exact hsource

theorem program_eq_of_leavesNoTrace (hreached : Reached assembler s)
    (hlaunched : s.session.state ≠ .idle) (hgoing : s.session.state ≠ .terminated) {l : Launch}
    (hl : v.bind launch? = some l)
    (hno : s.LeavesNoTrace h (.message ⟨n, type, .request "launch" v⟩)) :
    some l.program = s.program := by
  have hempty := hreached.events
  obtain ⟨line, hline⟩ : ∃ line, s.session.currentLine = some line := by
    unfold Session.currentLine
    cases hstate : s.session.state with
    | idle => exact absurd hstate hlaunched
    | terminated => exact absurd hstate hgoing
    | running line | waiting line | failed line => exact ⟨line, rfl⟩
  have hdepth := Session.depth_pos_of_currentLine hreached.session hline
  have hrefused : s.refused v = s.withProgram (some l.program) := by rw [refused, hl]
  let asked : List Incoming := [.message ⟨0, "request", .request "stackTrace" none⟩]
  have hrun (s : Server) (hempty : s.session.events = #[]) : s.serve h asked =
      some (number s.seq [responseContent 0 "stackTrace" (s.stackTrace none)], none) :=
    (serve_eq_some_iff hempty).mpr
      ⟨rfl, [_], rfl, .cons (performs_stackTrace s 0 none) (.nil s), rfl⟩
  have hsame := hno asked
  rw [serve_refusedLaunch hempty hlaunched, hrun s hempty, hrun _ rfl] at hsame
  rw [hrefused] at hsame
  simp only [Option.map_some, Option.some.injEq, Prod.mk.injEq, and_true] at hsame
  have hresponse :
      responseContent 0 "stackTrace" ((s.withProgram (some l.program)).stackTrace none) =
        responseContent 0 "stackTrace" (s.stackTrace none) :=
    (Prod.mk.inj (List.cons.inj hsame).1).2
  have hsource := source_eq_of_stackTrace_eq hline hdepth hresponse
  exact (source_eq_iff.mp hsource.symm).symm

end trace

/-- A launch that is asked for once a program has been launched is refused, with no event, and what
comes behind it is answered as it would have been without it, but for one thing: until a launch
names a program again, the frames of stack traces are said to be in the program that the refused
launch has named. So it leaves no trace exactly if it names no program, names the one that the
server names anyway, or comes when the session is over and there are no frames any more. -/
theorem refused_launch_shows_in_sources_alone {assembler : Assembler} {s : Server}
    (hreached : Reached assembler s) (hlaunched : s.session.state ≠ .idle) (h : Host) (n : Nat)
    (type : String) (v : Option Json) :
    (∀ stream,
      (s.serve h stream = none ∧
        s.serve h (.message ⟨n, type, .request "launch" v⟩ :: stream) = none) ∨
      ∃ xs failure, xs.map (·.request) = requests stream ∧
        s.serve h stream = some (number s.seq (xs.flatMap Exchange.contents), failure) ∧
        s.serve h (.message ⟨n, type, .request "launch" v⟩ :: stream) =
          some (number s.seq ((refusedLaunch n v :: behindRefused v xs).flatMap Exchange.contents),
            failure)) ∧
    (s.LeavesNoTrace h (.message ⟨n, type, .request "launch" v⟩) ↔
      ∀ l, v.bind launch? = some l →
        some l.program = s.program ∨ s.session.state = .terminated) := by
  have hempty := hreached.events
  constructor
  · intro stream
    rcases serve_behind_refused (n := n) (v := v) hempty hlaunched type stream with
      hnone | ⟨xs, failure, hxs, -, hwithout, hwith⟩
    · exact Or.inl hnone
    · exact Or.inr ⟨xs, failure, hxs, hwithout, hwith⟩
  · constructor
    · intro hno l hl
      cases Decidable.em (s.session.state = .terminated) with
      | inl hover => exact Or.inr hover
      | inr hgoing => exact Or.inl (program_eq_of_leavesNoTrace hreached hlaunched hgoing hl hno)
    · intro hnamed
      refine leavesNoTrace_of_behindRefused hempty hlaunched ?_
      intro xs hxs
      rw [behindRefused]
      cases hl : v.bind launch? with
      | none => rfl
      | some l =>
        rcases hnamed l hl with hprogram | hover
        · show renamed (source { program := some l.program }) xs = xs
          rw [← source_eq_iff.mpr hprogram.symm]
          exact hxs.renamed_eq
        · exact hxs.renamed_of_terminated hover _

/-- Every file holds the same short program. -/
def sameEverywhere : Host :=
  { assembler := assemble, readText := fun _ => .ok "MAIN START\n RET\n END\n", fuel := 1 }

def launchArguments (path : String) : Json :=
  .obj [("program", .str path), ("stopOnEntry", .bool true)]

/-- The server once `p.cas` has been launched, stopped at its entry. -/
def launchedServer : Server :=
  let handled := ({} : Server).handle sameEverywhere 1 "launch" (some (launchArguments "p.cas"))
  (handled.map (·.2)).getD {}

theorem reached_launchedServer : Reached assemble launchedServer := by
  have hhandled : (({} : Server).handle sameEverywhere 1 "launch"
      (some (launchArguments "p.cas"))).isSome = true := by decide +kernel
  obtain ⟨⟨sent, s⟩, hs⟩ := Option.isSome_iff_exists.mp hhandled
  have hsame : s = launchedServer := by rw [launchedServer, hs]; rfl
  have hstays : "launch" ≠ "disconnect" := by decide
  exact hsame ▸ .handled sameEverywhere ⟨1, "launch", some (launchArguments "p.cas")⟩ .start rfl
    hstays hs

/-- Launching the same program once more leaves no trace, and launching another one does. -/
theorem second_program_leaves_trace :
    launchedServer.session.state ≠ .idle ∧
    launchedServer.LeavesNoTrace sameEverywhere
      (.message ⟨2, "request", .request "launch" (some (launchArguments "p.cas"))⟩) ∧
    ¬ launchedServer.LeavesNoTrace sameEverywhere
      (.message ⟨2, "request", .request "launch" (some (launchArguments "q.cas"))⟩) := by
  have hlaunched : launchedServer.session.state ≠ .idle := by decide +kernel
  have hgoing : launchedServer.session.state ≠ .terminated := by decide +kernel
  have hprogram : launchedServer.program = some "p.cas" := by decide +kernel
  have hread (path : String) : (launch? (launchArguments path)).map (·.program) = some path := by
    rfl
  refine ⟨hlaunched, ?_, ?_⟩
  · obtain ⟨-, hiff⟩ := refused_launch_shows_in_sources_alone reached_launchedServer hlaunched
      sameEverywhere 2 "request" (some (launchArguments "p.cas"))
    refine hiff.mpr ?_
    intro l hl
    have hnamed := hread "p.cas"
    rw [Option.bind_some] at hl
    rw [hl, Option.map_some] at hnamed
    exact Or.inl (hnamed.trans hprogram.symm)
  · obtain ⟨-, hiff⟩ := refused_launch_shows_in_sources_alone reached_launchedServer hlaunched
      sameEverywhere 2 "request" (some (launchArguments "q.cas"))
    intro hno
    obtain ⟨l, hl, hnamed⟩ := Option.map_eq_some_iff.mp (hread "q.cas")
    rcases hiff.mp hno l hl with hsame | hover
    · rw [hnamed, hprogram] at hsame
      exact absurd hsame (by decide)
    · exact hgoing hover

/-- Not every refused launch leaves no trace: behind one of `q.cas`, the frames of `p.cas` are said
to be in `q.cas`. -/
theorem frames_named_after_refused_launch :
    ¬ ∀ (assembler : Assembler) (s : Server) (h : Host) (n : Nat) (type : String)
      (v : Option Json), Reached assembler s → s.session.state ≠ .idle →
      (∃ e t, s.perform h "launch" v = some (.error e, t)) →
      s.LeavesNoTrace h (.message ⟨n, type, .request "launch" v⟩) := by
  intro hnever
  have hlaunched : launchedServer.session.state ≠ .idle := by decide +kernel
  have hrefused := (performs_refusedLaunch (h := sameEverywhere) (n := 2)
    (v := some (launchArguments "q.cas")) hlaunched).perform reached_launchedServer.events
  have hno := hnever assemble launchedServer sameEverywhere 2 "request"
    (some (launchArguments "q.cas")) reached_launchedServer hlaunched ⟨_, _, hrefused⟩
    [.message ⟨3, "request", .request "stackTrace" none⟩]
  have htexts := congrArg (Option.map fun run : List (String × Content) × Option StreamError =>
    run.1.map fun (type, content) => (Message.mk 0 type content).toJson.text) hno
  revert htexts
  decide +kernel

end Server

end Adapter

end Comet
