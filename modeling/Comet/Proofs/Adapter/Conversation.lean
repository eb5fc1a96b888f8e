import Mathlib.Data.List.Induction
import Comet.Proofs.Adapter.Exchange
import Comet.Proofs.Debug.BreakpointEvent

namespace Comet

namespace Session

def withEvents (s : Session) (events : Array Event) : Session := { s with events }

end Session

namespace Adapter

/-- The program that the exchange has launched. -/
def Exchange.launched? (x : Exchange) : Option String :=
  x.answer.toOption.bind fun _ => x.request.program?

/-- Whether the client counts lines from one, by the last of the exchanges that says so. -/
def linesStartAt1 (log : List Exchange) : Bool :=
  (log.filterMap (·.request.linesStartAt1?)).getLast?.getD true

/-- The program that has been launched. Only the first launch that is no error counts. -/
def launchedPath? (log : List Exchange) : Option String := log.findSome? Exchange.launched?

namespace Server

/-- The exchanges lead from one server to the other, each with the files as they are then. -/
inductive Talks (assembler : Assembler) : Server → List Exchange → Server → Prop
  | nil (s : Server) : Talks assembler s [] s
  | cons {s t u : Server} {x : Exchange} {xs : List Exchange} (h : Host)
      (hassembler : h.assembler = assembler) (hfirst : s.Performs h x t)
      (hrest : Talks assembler t xs u) : Talks assembler s (x :: xs) u

section performs

variable {h : Host} {s t : Server} {x : Exchange}

/-- The events of an exchange are those that the session has waiting after its request. -/
theorem Performs.inversion (hx : s.Performs h x t) :
    t.linesStartAt1 = x.request.linesStartAt1?.getD s.linesStartAt1 ∧
      ((x.request.session? h s = none ∧
          t.session.withEvents x.events.toArray = s.session.withEvents #[]) ∨
        ∃ q, x.request.session? h s = some q ∧
          (s.session.withEvents #[]).after h.assembler q h.fuel =
            some (t.session.withEvents x.events.toArray)) := by
  have hperform := hx 0 #[]
  rw [Array.empty_append] at hperform
  exact perform_inversion hperform

/-- What the session is asked for does not change how lines are counted. -/
theorem Performs.linesStartAt1_of_session? (hx : s.Performs h x t) {q : Session.Request}
    (hq : x.request.session? h s = some q) : t.linesStartAt1 = s.linesStartAt1 := by
  have hnone : x.request.linesStartAt1? = none := by
    refine if_neg fun hcommand => ?_
    simp [ClientRequest.session?, hcommand] at hq
  rw [hx.inversion.1, hnone]
  rfl

/-- What is told comes of a request of the session. -/
theorem Performs.session?_of_mem_events (hx : s.Performs h x t) {e : Session.Event}
    (he : e ∈ x.events) : ∃ q, x.request.session? h s = some q ∧
      (s.session.withEvents #[]).after h.assembler q h.fuel =
        some (t.session.withEvents x.events.toArray) := by
  rcases hx.inversion.2 with ⟨-, hsession⟩ | hasked
  · have hnone : x.events = [] := congrArg (·.events.toList) hsession
    rw [hnone] at he
    cases he
  · exact hasked

/-- Placing breakpoints tells of nothing. -/
theorem Performs.placing?_of_mem_events (hx : s.Performs h x t) {e : Session.Event}
    (he : e ∈ x.events) : x.request.placing? = none := by
  obtain ⟨q, hq, hsession⟩ := hx.session?_of_mem_events he
  cases hplaces : x.request.placing? with
  | none => rfl
  | some placing =>
    obtain ⟨path, lines⟩ := placing
    obtain rfl := Option.some.inj (hq.symm.trans (session?_of_placing? hplaces))
    have hnone : [] = x.events := congrArg (·.events.toList) (Option.some.inj hsession)
    rw [← hnone] at he
    cases he

end performs

section talks

variable {assembler : Assembler} {s t u : Server} {x : Exchange} {xs ys : List Exchange}

theorem talks_append_iff :
    Talks assembler s (xs ++ ys) u ↔ ∃ t, Talks assembler s xs t ∧ Talks assembler t ys u := by
  constructor
  · intro htalk
    induction xs generalizing s with
    | nil => exact ⟨s, .nil s, htalk⟩
    | cons x xs ih =>
      cases htalk with
      | cons h hassembler hfirst hrest =>
        obtain ⟨t, hxs, hys⟩ := ih hrest
        exact ⟨t, .cons h hassembler hfirst hxs, hys⟩
  · rintro ⟨t, hxs, hys⟩
    induction hxs with
    | nil s => exact hys
    | cons h hassembler hfirst _ ih => exact .cons h hassembler hfirst (ih hys)

theorem talks_cons_iff : Talks assembler s (x :: xs) u ↔
    ∃ h t, h.assembler = assembler ∧ s.Performs h x t ∧ Talks assembler t xs u := by
  constructor
  · intro htalk
    cases htalk with
    | cons h hassembler hfirst hrest => exact ⟨h, _, hassembler, hfirst, hrest⟩
  · rintro ⟨h, t, hassembler, hfirst, hrest⟩
    exact .cons h hassembler hfirst hrest

theorem talks_concat_iff : Talks assembler s (xs ++ [x]) u ↔
    ∃ t h, Talks assembler s xs t ∧ h.assembler = assembler ∧ t.Performs h x u := by
  rw [talks_append_iff]
  constructor
  · rintro ⟨t, hxs, hx⟩
    obtain ⟨h, _, hassembler, hlast, hnil⟩ := talks_cons_iff.mp hx
    cases hnil
    exact ⟨t, h, hxs, hassembler, hlast⟩
  · rintro ⟨t, h, hxs, hassembler, hlast⟩
    exact ⟨t, hxs, .cons h hassembler hlast (.nil u)⟩

/-- The exchanges that come of requests while the files stay as they are. -/
def converse (h : Host) (s : Server) : List ClientRequest → Option (List Exchange)
  | [] => some []
  | r :: rest => (s.perform h r.command r.arguments).bind fun (answer, t) =>
    (converse h (t.withOutgoing t.seq #[]) rest).map (⟨r, answer, t.session.events.toList⟩ :: ·)

theorem exchanges_of_converse {h : Host} {rs : List ClientRequest}
    (hempty : s.session.events = #[]) (hxs : converse h s rs = some xs) :
    Exchanges h s xs ∧ xs.map (·.request) = rs := by
  induction rs generalizing s xs with
  | nil =>
    cases hxs
    exact ⟨.nil s, rfl⟩
  | cons r rest ih =>
    obtain ⟨⟨answer, t⟩, hperform, hrest⟩ := Option.bind_eq_some_iff.mp hxs
    obtain ⟨ys, hys, rfl⟩ := Option.map_eq_some_iff.mp hrest
    obtain ⟨hexchanges, hrequests⟩ := ih rfl hys
    exact ⟨.cons (performs_of_perform hempty hperform) (exchanges_withOutgoing_iff.mp hexchanges),
      by rw [List.map_cons, hrequests]⟩

/-- What a server answers while the files stay as they are is a conversation. -/
theorem Exchanges.talks {h : Host} (hxs : Exchanges h s xs) : ∃ u, Talks h.assembler s xs u := by
  induction hxs with
  | nil s => exact ⟨s, .nil s⟩
  | cons hfirst _ ih =>
    obtain ⟨u, hrest⟩ := ih
    exact ⟨u, .cons h rfl hfirst hrest⟩

theorem Talks.reaches (htalk : Talks assembler s xs u) :
    Session.Reaches assembler (s.session.withEvents #[]) (u.session.withEvents #[]) := by
  induction htalk with
  | nil s => exact .refl
  | @cons s t u x xs h hassembler hfirst _ ih =>
    refine Session.Reaches.trans ?_ ih
    rcases hfirst.inversion.2 with ⟨-, hsession⟩ | ⟨q, -, hsession⟩
    · have hquiet : t.session.withEvents #[] = s.session.withEvents #[] :=
        congrArg (·.withEvents #[]) hsession
      rw [hquiet]
      exact .refl
    · rw [hassembler] at hsession
      exact (Session.Reaches.tail q h.fuel .refl hsession).tail .takeEvents 0 rfl

end talks

section lines

variable {assembler : Assembler} {s u : Server} {log : List Exchange}

theorem Talks.linesStartAt1_eq (htalk : Talks assembler s log u) : u.linesStartAt1 =
    (log.filterMap (·.request.linesStartAt1?)).getLast?.getD s.linesStartAt1 := by
  induction htalk with
  | nil s => rfl
  | @cons s t u x xs h _ hfirst _ ih =>
    rw [ih, hfirst.inversion.1, List.filterMap_cons]
    cases x.request.linesStartAt1? with
    | none => rfl
    | some b =>
      simp only [List.getLast?_cons, Option.getD_some]

theorem Talks.linesStartAt1_of_none (htalk : Talks assembler s log u)
    (hnone : ∀ x ∈ log, x.request.linesStartAt1? = none) : u.linesStartAt1 = s.linesStartAt1 := by
  rw [htalk.linesStartAt1_eq, List.filterMap_eq_nil_iff.mpr hnone]
  rfl

end lines

section launch

variable {assembler : Assembler} {h : Host} {s t u : Server} {x : Exchange} {log : List Exchange}

theorem Performs.launch (hx : s.Performs h x t) {path : String}
    (hnamed : x.request.program? = some path) : ∃ l e, l.program = path ∧
      (s.session.withEvents #[]).launch h.assembler h.readText l h.fuel =
        some (e, t.session.withEvents x.events.toArray) ∧
      x.launched? = e.toOption.map fun _ => path := by
  have hlaunched : x.launched? = x.answer.toOption.map fun _ => path := by
    rw [Exchange.launched?, hnamed]
    cases x.answer <;> rfl
  obtain ⟨hcommand, hnamed⟩ := Option.ite_none_right_eq_some.mp hnamed
  obtain ⟨l, hl, rfl⟩ := Option.map_eq_some_iff.mp hnamed
  have hperform := hx 0 #[]
  rw [Array.empty_append, hcommand] at hperform
  simp only [Server.perform, Server.launch, arguments, hl] at hperform
  obtain ⟨⟨e, v⟩, hlaunch, hsame⟩ := Option.map_eq_some_iff.mp hperform
  obtain ⟨hanswer, hserver⟩ := Prod.mk.inj hsame
  have hsession : v = t.session.withEvents x.events.toArray := congrArg (·.session) hserver
  rw [hsession] at hlaunch
  refine ⟨l, e, rfl, hlaunch, ?_⟩
  rw [hlaunched, ← hanswer]
  cases e <;> rfl

/-- A launch that is no error is the first. Nothing else says which program is debugged. -/
theorem Performs.launched? (hx : s.Performs h x t) :
    (x.launched? ≠ none → s.session.state = .idle ∧ t.session.state ≠ .idle) ∧
      (t.session.state = .idle → s.session.state = .idle) ∧
      (t.session.sourceFile = s.session.sourceFile ∨
        (x.launched? ≠ none ∧ t.session.sourceFile = x.launched?)) := by
  cases hnamed : x.request.program? with
  | some path =>
    obtain ⟨l, e, rfl, hlaunch, haccepted⟩ := hx.launch hnamed
    have hlaunched := Session.launch_state_ne_idle hlaunch
    obtain ⟨hfirst, hsource⟩ := Session.launch_sourceFile hlaunch
    rw [haccepted]
    refine ⟨fun hsome => hfirst ?_, fun hidle => absurd hidle hlaunched, hsource.imp_right ?_⟩
    · cases e with
      | error e => exact absurd rfl hsome
      | ok => rfl
    · rintro ⟨rfl, hpath⟩
      exact ⟨nofun, hpath⟩
  | none =>
    have hnone : x.launched? = none := by simp [Exchange.launched?, hnamed]
    refine ⟨fun hsome => absurd hnone hsome, ?_⟩
    rcases hx.inversion.2 with ⟨-, hsession⟩ | ⟨q, hq, hsession⟩
    · have hstate : t.session.state = s.session.state := congrArg (·.state) hsession
      have hsource : t.session.sourceFile = s.session.sourceFile := congrArg (·.sourceFile) hsession
      exact ⟨fun hidle => hstate ▸ hidle, Or.inl hsource⟩
    · have hother (readText : Session.ReadText) (l : Launch) : q ≠ .launch readText l := by
        rintro rfl
        cases asks_of_session? hq with
        | launch l hnames => simp [hnames] at hnamed
      have hsource := Session.after_sourceFile hother hsession
      refine ⟨fun hidle => ?_, Or.inl hsource⟩
      by_contra hne
      have hlaunched : (s.session.withEvents #[]).state ≠ .idle := hne
      exact Session.after_state_ne_idle hlaunched hsession hidle

theorem Talks.launchedPath? (htalk : Talks assembler {} log u) :
    (u.session.state = .idle → launchedPath? log = none) ∧
      ∀ path, u.session.sourceFile = some path → launchedPath? log = some path := by
  -- A launch counts only where the session is idle, and there none has counted before it.
  induction log using List.reverseRecOn generalizing u with
  | nil =>
    cases htalk
    exact ⟨fun _ => rfl, nofun⟩
  | append_singleton log x ih =>
    obtain ⟨t, h, hlog, -, hx⟩ := talks_concat_iff.mp htalk
    obtain ⟨hnever, hpath⟩ := ih hlog
    obtain ⟨hfirst, hidle, hsource⟩ := hx.launched?
    have hlaunched : launchedPath? (log ++ [x]) = (launchedPath? log).or x.launched? := by
      simp [Adapter.launchedPath?, List.findSome?_append]
    rw [hlaunched]
    constructor
    · intro hstate
      have hnone : x.launched? = none := by
        by_contra hsome
        exact (hfirst hsome).2 hstate
      rw [hnever (hidle hstate), hnone]
      rfl
    · intro path hprogram
      rcases hsource with hsame | ⟨hsome, hsame⟩
      · rw [hpath path (hsame ▸ hprogram)]
        rfl
      · rw [hnever (hfirst hsome).1, ← hsame, hprogram]
        rfl

end launch

section breakpoints

variable {assembler : Assembler} {h : Host} {s t u : Server} {x : Exchange} {log : List Exchange}
  {path : String}

theorem Performs.placing (hx : s.Performs h x t) {lines : List Int}
    (hplaces : x.request.placing? = some (path, lines)) :
    x.answer = .ok (some (Json.object [("breakpoints",
      .arr ((t.session.breakpoints.get path).map s.breakpointJson))])) ∧
      (t.session.breakpoints.get path).map (·.line) = lines.map s.fromClient := by
  obtain ⟨hcommand, hplaces⟩ := Option.ite_none_right_eq_some.mp hplaces
  obtain ⟨b, hb, hnames⟩ := Option.bind_eq_some_iff.mp hplaces
  obtain ⟨path', hpath, hsame⟩ := Option.map_eq_some_iff.mp hnames
  obtain ⟨rfl, rfl⟩ := Prod.mk.inj hsame
  have hperform := hx 0 #[]
  rw [Array.empty_append, hcommand] at hperform
  simp only [Server.perform, Server.setBreakpoints, arguments, hb, hpath, Option.some.injEq,
    Prod.mk.injEq] at hperform
  obtain ⟨hanswer, hserver⟩ := hperform
  have htable : t.session.breakpoints = (s.session.breakpoints.set path'
      (h.readText path').toOption (b.lines.map s.fromClient)).2 :=
    (congrArg (·.session.breakpoints) hserver).symm
  rw [htable, BreakpointTable.get_set, ← hanswer]
  exact ⟨rfl, BreakpointTable.map_line_set⟩

theorem session?_placing {r : ClientRequest} {q : Session.Request} (hq : r.session? h s = some q) :
    (∀ v : Session, v.placing? q = none) ∨ ∃ path lines, r.placing? = some (path, lines) ∧
      q = .setBreakpoints h.readText path (lines.map s.fromClient) := by
  cases asks_of_session? hq with
  | @setBreakpoints path lines hplaces => exact Or.inr ⟨path, lines, hplaces, rfl⟩
  | launch | run | next | stepIn | stepOut | evaluate => exact Or.inl fun _ => rfl

/-- Another request leaves the breakpoints of the file as they are. -/
theorem Performs.breakpoints_get (hx : s.Performs h x t)
    (hother : ∀ lines, x.request.placing? ≠ some (path, lines)) :
    t.session.breakpoints.get path = s.session.breakpoints.get path := by
  rcases hx.inversion.2 with ⟨-, hsession⟩ | ⟨q, hq, hsession⟩
  · have hsame : t.session.breakpoints = s.session.breakpoints :=
      congrArg (·.breakpoints) hsession
    rw [hsame]
  · rcases session?_placing hq with hplaces | ⟨path', lines, hplaces, rfl⟩
    · have hquiet := Session.after_breakpoints (hplaces _) hsession
      have hsame : t.session.breakpoints = s.session.breakpoints := hquiet
      rw [hsame]
    · have hne : path ≠ path' := by
        rintro rfl
        exact hother lines hplaces
      have htable : t.session.breakpoints = (s.session.breakpoints.set path'
          (h.readText path').toOption (lines.map s.fromClient)).2 :=
        (congrArg (·.breakpoints) (Option.some.inj hsession)).symm
      rw [htable, BreakpointTable.get_set_of_ne hne]

/-- A breakpoint of a file is one of the last that have been placed there. -/
theorem Talks.placed (htalk : Talks assembler {} log u) {b : Breakpoint}
    (hb : b ∈ u.session.breakpoints.get path) : ∃ first placing between lines h s t,
      log = first ++ placing :: between ∧ Talks assembler {} first s ∧ s.Performs h placing t ∧
      Talks assembler t between u ∧ placing.request.placing? = some (path, lines) ∧
      (∀ x ∈ between, ∀ lines, x.request.placing? ≠ some (path, lines)) ∧
      u.session.breakpoints.get path = t.session.breakpoints.get path := by
  induction log using List.reverseRecOn generalizing u with
  | nil =>
    cases htalk
    cases hb
  | append_singleton log x ih =>
    obtain ⟨t, h, hlog, hassembler, hx⟩ := talks_concat_iff.mp htalk
    by_cases hother : ∀ lines, x.request.placing? ≠ some (path, lines)
    · have hsame := hx.breakpoints_get hother
      rw [hsame] at hb
      obtain ⟨first, placing, between, lines, h', s', t', rfl, hfirst, hplacing, hbetween,
        hplaces, hothers, hget⟩ := ih hlog hb
      refine ⟨first, placing, between ++ [x], lines, h', s', t', by simp, hfirst, hplacing,
        talks_concat_iff.mpr ⟨t, h, hbetween, hassembler, hx⟩, hplaces, ?_, hsame.trans hget⟩
      simp only [List.mem_append, List.mem_singleton]
      rintro y (hy | rfl)
      · exact hothers y hy
      · exact hother
    · simp only [ne_eq, not_forall, not_not] at hother
      obtain ⟨lines, hplaces⟩ := hother
      exact ⟨log, x, [], lines, h, t, u, rfl, hlog, hx, .nil u, hplaces, by simp, rfl⟩

end breakpoints

section stops

variable {assembler : Assembler} {h : Host} {s t u : Server} {x : Exchange} {log : List Exchange}

theorem session?_stays {r : ClientRequest} (hr : ¬ r.Resumes) {q : Session.Request}
    (hq : r.session? h s = some q) : q.Stays := by
  cases asks_of_session? hq with
  | launch | setBreakpoints | evaluate => trivial
  | run hresumes | next hresumes | stepIn hresumes | stepOut hresumes => exact absurd hresumes hr

/-- A program that is stopped stays where it is until the client lets it go on. -/
theorem Talks.stays (htalk : Talks assembler s log u) (hlog : ∀ x ∈ log, ¬ x.request.Resumes)
    {line : Nat} (hs : s.session.state = .running line) : u.session.state = .running line := by
  induction htalk with
  | nil s => exact hs
  | @cons s t u x xs h _ hfirst _ ih =>
    obtain ⟨hstays, hrest⟩ := List.forall_mem_cons.mp hlog
    refine ih hrest ?_
    rcases hfirst.inversion.2 with ⟨-, hsession⟩ | ⟨q, hq, hsession⟩
    · have hstate : t.session.state = s.session.state := congrArg (·.state) hsession
      exact hstate.trans hs
    · have hquiet : (s.session.withEvents #[]).state = .running line := hs
      have hstopped := (session?_stays hstays hq).after_of_running hquiet hsession
      exact hstopped

/-- An exchange that tells of a stop at a breakpoint leaves the session at one. -/
theorem Performs.atBreakpoint (hx : s.Performs h x t) {description : Option String}
    (hstop : .stopped .breakpoint description ∈ x.events) : t.session.AtBreakpoint := by
  obtain ⟨q, -, hsession⟩ := hx.session?_of_mem_events hstop
  have hnone : .stopped .breakpoint description ∉ (s.session.withEvents #[]).events := nofun
  have hat := Session.after_atBreakpoint hsession hnone (List.mem_toArray.mpr hstop)
  exact hat

end stops

end Server

end Adapter

end Comet
