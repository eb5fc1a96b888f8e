import Comet.Proofs.Adapter.Conversation
import Comet.Proofs.Adapter.RefusedLaunch

namespace Comet

theorem Session.stackTrace_innermost {s : Session} {line : Nat} (hline : s.currentLine = some line)
    (hdepth : 0 < s.depth) (levels : Option Nat) :
    ∃ f fs, (s.stackTrace 0 levels).frames = f :: fs ∧ f.line = line := by
  obtain ⟨innermost, callers, hframes⟩ := List.exists_cons_of_length_pos hdepth
  simp only [stackTrace, hline, frameViews, hframes, List.drop_zero]
  cases levels with
  | none => exact ⟨_, _, rfl, rfl⟩
  | some n =>
    cases n with
    | zero | succ n => exact ⟨_, _, rfl, rfl⟩

namespace Adapter

/-- The number that the client gives to the first line of a file. -/
def lineBase (log : List Exchange) : Nat := if linesStartAt1 log then 1 else 0

/-- The line that a breakpoint or a frame is shown at. -/
def shownLine? (v : Json) : Option Int := (v.member? "line").bind Json.int?

def isVerified (v : Json) : Bool := ((v.member? "verified").bind Json.bool?).getD false

/-- The request asks for frames of the call stack, from the innermost one on. -/
def ClientRequest.TracesInnermost (r : ClientRequest) : Prop :=
  r.command = "stackTrace" ∧ ∃ range,
    Server.argumentsD "stackTrace" {} frameRange? r.arguments = .ok range ∧ range.start.getD 0 = 0

namespace Server

section lines

variable (s : Server) (b : Breakpoint) (f : Session.FrameView)

def base : Nat := if s.linesStartAt1 then 1 else 0

/-- A line comes back as it has been given, unless it lies before the first one. -/
theorem toClient_fromClient (l : Int) : (s.toClient (s.fromClient l) : Int) = max l s.base := by
  unfold toClient fromClient base
  split <;> omega

theorem toClient_congr {t : Server} (h : t.linesStartAt1 = s.linesStartAt1) (line : Nat) :
    t.toClient line = s.toClient line := by
  rw [toClient, toClient, h]

theorem breakpointJson_eq : s.breakpointJson b = .obj [("id", .ofNat b.id),
    ("line", .ofNat (s.toClient b.line)), ("verified", .bool b.verified)] := by
  simp only [breakpointJson, Json.object, List.foldl_cons, List.foldl_nil, Json.insertMember,
    String.reduceLT, String.reduceEq, if_true, if_false]

@[simp] theorem shownLine?_breakpointJson :
    shownLine? (s.breakpointJson b) = some (s.toClient b.line : Int) := by
  rw [breakpointJson_eq]
  rfl

@[simp] theorem isVerified_breakpointJson : isVerified (s.breakpointJson b) = b.verified := by
  rw [breakpointJson_eq]
  rfl

@[simp] theorem shownLine?_frameJson :
    shownLine? (s.frameJson f) = some (s.toClient f.line : Int) := by
  rw [frameJson_eq]
  rfl

end lines

section placed

variable {s : Server} {bs : List Breakpoint} {requested : List Int}

/-- Each breakpoint is shown at the line that has been asked for. -/
theorem shownLine?_of_mem_zip (hlines : bs.map (·.line) = requested.map s.fromClient) {l : Int}
    {entry : Json} (h : (l, entry) ∈ requested.zip (bs.map s.breakpointJson)) :
    shownLine? entry = some (max l s.base) := by
  induction requested generalizing bs with
  | nil => cases h
  | cons l' requested ih =>
    cases bs with
    | nil => cases h
    | cons b bs =>
      simp only [List.map_cons, List.cons.injEq] at hlines
      rw [List.map_cons, List.zip_cons_cons, List.mem_cons] at h
      rcases h with hfirst | hrest
      · obtain ⟨rfl, rfl⟩ := Prod.mk.inj hfirst
        rw [shownLine?_breakpointJson, hlines.1, toClient_fromClient]
      · exact ih hlines.2 hrest

theorem exists_mem_zip (hlength : bs.length = requested.length) {b : Breakpoint} (hb : b ∈ bs) :
    ∃ l, (l, s.breakpointJson b) ∈ requested.zip (bs.map s.breakpointJson) := by
  obtain ⟨i, hi, rfl⟩ := List.getElem_of_mem hb
  refine ⟨requested[i], List.mem_iff_getElem.mpr ⟨i, by simp; omega, ?_⟩⟩
  simp

end placed

section trace

variable {assembler : Assembler} {h : Host} {s t : Server} {x : Exchange}

theorem Performs.traces_innermost (hx : s.Performs h x t) (htrace : x.request.TracesInnermost)
    {line : Nat} (hline : s.session.currentLine = some line) (hdepth : 0 < s.session.depth) :
    ∃ frame frames total, x.answer = .ok (some (.obj
      [("stackFrames", .arr (frame :: frames)), ("totalFrames", total)])) ∧
      shownLine? frame = some (s.toClient line : Int) := by
  obtain ⟨hcommand, range, hrange, hstart⟩ := htrace
  have hperform := hx 0 #[]
  rw [hcommand] at hperform
  simp only [Server.perform, Option.some.injEq, Prod.mk.injEq] at hperform
  have hanswer : s.stackTrace x.request.arguments = x.answer := hperform.1
  obtain ⟨f, fs, hframes, hf⟩ := Session.stackTrace_innermost hline hdepth range.levels
  refine ⟨s.frameJson f, fs.map s.frameJson,
    .ofNat (s.session.stackTrace 0 range.levels).totalFrames, ?_, ?_⟩
  · rw [← hanswer, Server.stackTrace, hrange]
    simp only [Except.map, hstart, hframes, List.map_cons, stackTraceJson_eq]
  · rw [shownLine?_frameJson, hf]

end trace

/-- Wherever the program stops at a breakpoint, breakpoints of the program that has been launched
have been placed. Each entry of the latest answer to that is shown at the line asked for, or at the
first line if that lies before it. As long as the client goes on counting lines in the same way, the
innermost frame is shown at the line of a verified entry, until the program is made to go on. -/
theorem stopped_at_line_answered {assembler : Assembler} {u : Server}
    {before after : List Exchange} {stop trace : Exchange} {description : Option String}
    (htalk : Talks assembler {} (before ++ stop :: (after ++ [trace])) u)
    (hstop : .stopped .breakpoint description ∈ stop.events)
    (hstays : ∀ x ∈ after, ¬ x.request.Resumes) (htrace : trace.request.TracesInnermost) :
    ∃ path first placing between requested entries,
      launchedPath? (before ++ [stop]) = some path ∧
      before = first ++ placing :: between ∧
      placing.request.placing? = some (path, requested) ∧
      (∀ x ∈ between, ∀ lines, x.request.placing? ≠ some (path, lines)) ∧
      placing.answer = .ok (some (.obj [("breakpoints", .arr entries)])) ∧
      requested.length = entries.length ∧
      (∀ (l : Int) (entry : Json), (l, entry) ∈ requested.zip entries →
        shownLine? entry = some (max l (lineBase first))) ∧
      ((∀ x ∈ between ++ after, x.request.linesStartAt1? = none) →
        ∃ l entry frame frames total, (l, entry) ∈ requested.zip entries ∧
          isVerified entry = true ∧
          trace.answer = .ok (some (.obj
            [("stackFrames", .arr (frame :: frames)), ("totalFrames", total)])) ∧
          shownLine? frame = shownLine? entry ∧
          ((lineBase first : Int) ≤ l → shownLine? frame = some l)) := by
  obtain ⟨s₁, hbefore, hrest⟩ := talks_append_iff.mp htalk
  obtain ⟨h₁, s₂, hassembler, hstops, hrest⟩ := talks_cons_iff.mp hrest
  obtain ⟨s₃, h₃, hafter, -, htraces⟩ := talks_concat_iff.mp hrest
  have hstopped : Talks assembler {} (before ++ [stop]) s₂ :=
    talks_concat_iff.mpr ⟨s₁, h₁, hbefore, hassembler, hstops⟩
  obtain ⟨line, path, b, hstate, hprogram, hb, hverified, rfl⟩ :=
    (hstops.atBreakpoint hstop).breakpoint
  have hunplaced : ∀ lines, stop.request.placing? ≠ some (path, lines) := by
    simp [hstops.placing?_of_mem_events hstop]
  rw [hstops.breakpoints_get hunplaced] at hb
  obtain ⟨first, placing, between, requested, h, s, t, rfl, hfirst, hplacing, hbetween, hplaces,
    hothers, hget⟩ := hbefore.placed hb
  rw [hget] at hb
  obtain ⟨hanswer, hlines⟩ := hplacing.placing hplaces
  generalize t.session.breakpoints.get path = bs at hb hanswer hlines
  have hbase : lineBase first = s.base := by
    rw [lineBase, base, hfirst.linesStartAt1_eq]
    rfl
  have hlength : bs.length = requested.length := by
    have hsame := congrArg List.length hlines
    simpa using hsame
  refine ⟨path, first, placing, between, requested, bs.map s.breakpointJson,
    hstopped.launchedPath?.2 path hprogram, rfl, hplaces, hothers, hanswer, by simp [hlength],
    fun l entry hentry => hbase ▸ shownLine?_of_mem_zip hlines hentry, ?_⟩
  intro hsame
  obtain ⟨hbetween', hafter'⟩ := List.forall_mem_append.mp hsame
  have hcount : s₃.linesStartAt1 = s.linesStartAt1 := by
    obtain ⟨q, hq, -⟩ := hstops.session?_of_mem_events hstop
    rw [hafter.linesStartAt1_of_none hafter', hstops.linesStartAt1_of_session? hq,
      hbetween.linesStartAt1_of_none hbetween',
      hplacing.linesStartAt1_of_session? (session?_of_placing? hplaces)]
  have hline : s₃.session.currentLine = some b.line := by
    rw [Session.currentLine, hafter.stays hstays hstate]
  have hreaches := (talks_append_iff.mpr ⟨s₂, hstopped, hafter⟩).reaches
  have hquiet : (s₃.session.withEvents #[]).currentLine = some b.line := hline
  have hdepth := Session.depth_pos_of_currentLine hreaches hquiet
  obtain ⟨frame, frames, total, htrace, hframe⟩ := htraces.traces_innermost htrace hline hdepth
  obtain ⟨l, hentry⟩ := exists_mem_zip (s := s) hlength hb
  have hshown := shownLine?_of_mem_zip hlines hentry
  rw [shownLine?_breakpointJson] at hshown
  refine ⟨l, s.breakpointJson b, frame, frames, total, hentry, ?_, htrace, ?_, ?_⟩
  · rw [isVerified_breakpointJson, hverified]
  · rw [hframe, shownLine?_breakpointJson, toClient_congr s hcount]
  · intro hl
    rw [hframe, toClient_congr s hcount, hshown, ← hbase, max_eq_left hl]

/-- Every file holds the same program. -/
def countedHost : Host :=
  { assembler := assemble
    readText := fun _ => .ok "MAIN START\n LAD GR1,1\n RET\n END\n"
    fuel := 8 }

/-- Of the two lines the first lies before the START, which counts as line one, and the second is
that of the RET. -/
def countedRequests : List ClientRequest :=
  [⟨1, "setBreakpoints", some (.obj [("source", .obj [("path", .str "p.cas")]),
      ("lines", .arr [.ofInt (-7), .ofInt 3])])⟩,
    ⟨2, "launch", some (launchArguments "p.cas")⟩, ⟨3, "continue", none⟩, ⟨4, "threads", none⟩,
    ⟨5, "stackTrace", none⟩]

theorem counted_exchanges : ∃ placing launch stop threads trace,
    Exchanges countedHost {} [placing, launch, stop, threads, trace] ∧
    [placing, launch, stop, threads, trace].map (·.request) = countedRequests ∧
    stop.events = [.stopped .breakpoint none] := by
  have hevents : (converse countedHost {} countedRequests).map (·.map (·.events)) =
      some [[], [.stopped .entry none], [.stopped .breakpoint none], [], []] := by decide +kernel
  obtain ⟨xs, hxs, hevents⟩ := Option.map_eq_some_iff.mp hevents
  obtain ⟨hexchanges, hrequests⟩ := exchanges_of_converse (s := {}) rfl hxs
  simp only [List.map_eq_cons_iff, List.map_eq_nil_iff] at hevents
  obtain ⟨placing, _, rfl, -, launch, _, rfl, -, stop, _, rfl, hstop, threads, _, rfl, -, trace, _,
    rfl, -, rfl⟩ := hevents
  exact ⟨placing, launch, stop, threads, trace, hexchanges, hrequests, hstop⟩

/-- The program stops at one of the two lines, and is shown there. -/
theorem stop_shown_at_line_answered : ∃ before stop after trace u,
    (before ++ stop :: (after ++ [trace])).map (·.request) = countedRequests ∧
    Talks assemble {} (before ++ stop :: (after ++ [trace])) u ∧
    .stopped .breakpoint none ∈ stop.events ∧ (∀ x ∈ after, ¬ x.request.Resumes) ∧
    trace.request.TracesInnermost ∧
    ∃ l entry frame frames total, isVerified entry = true ∧ trace.answer = .ok (some (.obj
        [("stackFrames", .arr (frame :: frames)), ("totalFrames", total)])) ∧
      shownLine? frame = shownLine? entry ∧ shownLine? entry = some (max l 1) := by
  obtain ⟨placing, launch, stop, threads, trace, hexchanges, hrequests, hevents⟩ :=
    counted_exchanges
  obtain ⟨u, htalk⟩ := hexchanges.talks
  have hstop : .stopped .breakpoint none ∈ stop.events := hevents ▸ List.mem_singleton_self _
  have heach := hrequests
  simp only [countedRequests, List.map_cons, List.cons.injEq] at heach
  obtain ⟨hplacing, hlaunch, -, hthreads, htrace, -⟩ := heach
  have hstays : ∀ x ∈ [threads], ¬ x.request.Resumes := by
    simp [hthreads, ClientRequest.Resumes]
  have hinnermost : trace.request.TracesInnermost := by
    rw [htrace]
    exact ⟨rfl, {}, rfl, rfl⟩
  obtain ⟨path, first, placing', between, requested, entries, -, hbefore, -, -, -, -, hshown,
    hframes⟩ := @stopped_at_line_answered assemble u [placing, launch] [threads] stop trace none
      htalk hstop hstays hinnermost
  have huncounted : ∀ x ∈ [placing, launch] ++ [threads], x.request.linesStartAt1? = none := by
    simp [hplacing, hlaunch, hthreads, ClientRequest.linesStartAt1?]
  rw [hbefore] at huncounted
  simp only [List.forall_mem_append, List.forall_mem_cons] at huncounted
  obtain ⟨⟨hfirst, -, hbetween⟩, hafter⟩ := huncounted
  have hbase : lineBase first = 1 := by
    rw [lineBase, Adapter.linesStartAt1, List.filterMap_eq_nil_iff.mpr hfirst]
    rfl
  obtain ⟨l, entry, frame, frames, total, hentry, hverified, hanswer, hframe, -⟩ :=
    hframes (List.forall_mem_append.mpr ⟨hbetween, List.forall_mem_cons.mpr hafter⟩)
  have hline := hshown l entry hentry
  rw [hbase] at hline
  exact ⟨[placing, launch], stop, [threads], trace, u, hrequests, htalk, hstop, hstays, hinnermost,
    l, entry, frame, frames, total, hverified, hanswer, hframe, hline⟩

end Server

end Adapter

end Comet
