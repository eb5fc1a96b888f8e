import Comet.Assembly.Link
import Comet.Proofs.Debug.LineStep
import Comet.Proofs.Machine.StackEffect

/-! The frames of the debugger against the stack of the machine. The stepper adds and removes frames
by the calls and returns that it sees and never looks at the stack, on which the program puts values
of its own between the return addresses. As long as the program takes from the stack what it has put
there and stores nowhere on it, there is one frame for each return address. -/
namespace Comet

/-- What a word on the stack of the machine is there for. -/
inductive StackEntry
  | value
  /-- Where a call returns to, and the line from which the call was made. -/
  | ret (address : Word) (line : Nat)
  deriving DecidableEq, Repr

namespace StackEntry

def callLine? : StackEntry → Option Nat
  | value => none
  | ret _ line => some line

/-- The lines of the calls that have not returned, the innermost call first. -/
def callLines (entries : List StackEntry) : List Nat := entries.filterMap callLine?

/-- The entries after the instruction at the address `origin` has been executed by leaving the
line, topmost first. -/
def after (i : Instruction) (origin : Word) (line : Nat) (entries : List StackEntry) :
    List StackEntry :=
  match i.mnemonic with
  | .push => value :: entries
  | .call => ret (origin + i.size) line :: entries
  | .pop | .ret => entries.tail
  | _ => entries

theorem after_of_usesStack {i : Instruction} (h : i.mnemonic.usesStack = false) (origin : Word)
    (line : Nat) (entries : List StackEntry) : after i origin line entries = entries := by
  unfold after
  split <;> simp_all [Mnemonic.usesStack]

end StackEntry

namespace Machine

/-- The entries, topmost first, are those on the stack of the machine. -/
structure Holds (m : Machine) (entries : List StackEntry) : Prop where
  room : entries.length < memorySize
  pointer : m.sp = -.ofNat entries.length
  returns : ∀ k address line, entries[k]? = some (.ret address line) →
    m.read (m.sp + .ofNat k) = address

/-- The instruction treats the stack as a stack: it neither moves the stack pointer nor stores on
the stack, it takes from the stack what it expects there, and there is room for what it puts on
it. -/
structure Respects (m : Machine) (i : Instruction) (input : Option String)
    (entries : List StackEntry) : Prop where
  destination : i.destination? ≠ some 8
  stores : entries ≠ [] → ∀ a ∈ m.storeAddresses i input, a < m.sp
  pop : i.mnemonic = .pop → entries.head? = some .value
  ret : i.mnemonic = .ret → entries.head? ≠ some .value
  room : i.mnemonic = .push ∨ i.mnemonic = .call → entries.length + 1 < memorySize

instance (m : Machine) (i : Instruction) (input : Option String) (entries : List StackEntry) :
    Decidable (m.Respects i input entries) :=
  -- The addresses that are stored to are gone through, and not all there are.
  letI := List.decidableBAll (fun a => a < m.sp) (m.storeAddresses i input)
  decidable_of_iff (_ ∧ _ ∧ _ ∧ _ ∧ _)
    ⟨fun h => ⟨h.1, h.2.1, h.2.2.1, h.2.2.2.1, h.2.2.2.2⟩,
      fun h => ⟨h.destination, h.stores, h.pop, h.ret, h.room⟩⟩

section holds

variable {m m' : Machine} {entries : List StackEntry}

/-- The stack reaches from the stack pointer to the end of memory. -/
theorem Holds.toNat_address (h : m.Holds entries) {k : Nat} (hk : k < entries.length) :
    (m.sp + .ofNat k).toNat = memorySize - entries.length + k := by
  have hroom := h.room
  rw [h.pointer]
  simp only [memorySize] at hroom ⊢
  simp only [UInt16.toNat_add, UInt16.toNat_neg, UInt16.toNat_ofNat', UInt16.size]
  omega

theorem Holds.toNat_sp (h : m.Holds entries) (hne : entries ≠ []) :
    m.sp.toNat = memorySize - entries.length := by
  have hfirst := h.toNat_address (List.length_pos_iff.mpr hne)
  simpa using hfirst

theorem Holds.sp_eq_zero_iff (h : m.Holds entries) : m.sp = 0 ↔ entries = [] := by
  constructor
  · intro hsp
    cases entries with
    | nil => rfl
    | cons e rest =>
      have hfirst := h.toNat_sp (List.cons_ne_nil e rest)
      have hroom := h.room
      rw [hsp] at hfirst
      simp only [memorySize, UInt16.toNat_zero] at hfirst hroom
      omega
  · rintro rfl
    rw [h.pointer]
    rfl

/-- A word below the stack pointer is on top of the others. -/
theorem Holds.cons (h : m.Holds entries) {e : StackEntry} {w : Word}
    (hroom : entries.length + 1 < memorySize) (hsp : m'.sp = m.sp - 1)
    (hmemory : m'.memory = m.memory.write (m.sp - 1) w)
    (he : ∀ address line, e = .ret address line → w = address) : m'.Holds (e :: entries) := by
  have hread (a : Word) : m'.read a = if a = m.sp - 1 then w else m.read a := by
    rw [read, hmemory, Memory.read_write, read]
  refine ⟨hroom, ?_, ?_⟩
  · rw [hsp, h.pointer, List.length_cons]
    grind [UInt16.ofNat_add]
  · intro k address line hk
    cases k with
    | zero =>
      have htop : m'.sp + .ofNat 0 = m.sp - 1 := by rw [hsp]; simp
      rw [htop, hread, if_pos rfl]
      exact he address line (by simpa using hk)
    | succ k =>
      have hold : m'.sp + .ofNat (k + 1) = m.sp + .ofNat k := by
        rw [hsp]
        grind [UInt16.ofNat_add]
      have hlt : k < entries.length := (List.getElem?_eq_some_iff.mp (by simpa using hk)).1
      have hapart : m.sp + .ofNat k ≠ m.sp - 1 := by
        intro heq
        have haddress := h.toNat_address hlt
        have hfirst := h.toNat_sp (List.ne_nil_of_length_pos (Nat.zero_lt_of_lt hlt))
        rw [heq, UInt16.toNat_sub, hfirst] at haddress
        simp only [memorySize] at haddress hroom
        simp at haddress
        omega
      rw [hold, hread, if_neg hapart]
      exact h.returns k address line (by simpa using hk)

/-- Without the word at the stack pointer the others are left. -/
theorem Holds.tail (h : m.Holds entries) (hne : entries ≠ []) (hsp : m'.sp = m.sp + 1)
    (hmemory : m'.memory = m.memory) : m'.Holds entries.tail := by
  obtain ⟨e, rest, rfl⟩ := List.exists_cons_of_ne_nil hne
  refine ⟨Nat.lt_of_succ_lt h.room, ?_, ?_⟩
  · rw [hsp, h.pointer, List.length_cons, List.tail_cons]
    grind [UInt16.ofNat_add]
  · intro k address line hk
    have hnext : m'.sp + .ofNat k = m.sp + .ofNat (k + 1) := by
      rw [hsp]
      grind [UInt16.ofNat_add]
    rw [read, hmemory, hnext]
    exact h.returns (k + 1) address line (by simpa using hk)

theorem Holds.congr (h : m.Holds entries) (hsp : m'.sp = m.sp)
    (hread : ∀ k < entries.length, m'.read (m.sp + .ofNat k) = m.read (m.sp + .ofNat k)) :
    m'.Holds entries := by
  refine ⟨h.room, hsp.trans h.pointer, ?_⟩
  intro k address line hk
  rw [hsp, hread k (List.getElem?_eq_some_iff.mp hk).1]
  exact h.returns k address line hk

theorem Holds.load {p : Program} {options : MachineOptions} (h : Machine.load p options = .ok m) :
    m.Holds [] := by
  unfold Machine.load at h
  split at h
  · cases h
  · cases h
    exact ⟨by decide, rfl, fun k address line hk => by simp at hk⟩

theorem Holds.read_sp {address : Word} {line : Nat} {rest : List StackEntry}
    (h : m.Holds (.ret address line :: rest)) : m.read m.sp = address := by
  have htop : m.sp + .ofNat 0 = m.sp := by simp
  rw [← h.returns 0 address line rfl, htop]

/-- Unless the stack is empty, a return finds the address of the innermost call. -/
theorem Holds.exists_ret (h : m.Holds entries) (hsome : m.sp ≠ 0)
    (hret : entries.head? ≠ some .value) :
    ∃ line rest, entries = .ret (m.read m.sp) line :: rest := by
  cases entries with
  | nil => exact absurd (h.sp_eq_zero_iff.mpr rfl) hsome
  | cons e rest =>
    cases e with
    | value => exact absurd rfl hret
    | ret address line => exact ⟨line, rest, by rw [h.read_sp]⟩

/-- An instruction that respects the stack does to it what it is known to do. -/
theorem Holds.step {i : Instruction} {input : Option String} {halted : Bool}
    (h : m.Holds entries) (hrespects : m.Respects i input entries)
    (heffect : m.StackEffect i input halted m') (line : Nat) :
    m'.Holds (StackEntry.after i m.pr line entries) := by
  cases heffect with
  | pushed hi w hsp hmemory =>
    simp only [StackEntry.after, hi]
    exact h.cons (hrespects.room (Or.inl hi)) hsp hmemory (by simp)
  | called hi hsp hmemory =>
    simp only [StackEntry.after, hi]
    refine h.cons (hrespects.room (Or.inr hi)) hsp hmemory ?_
    rintro address line ⟨⟩
    rfl
  | popped hi hsp hmemory =>
    simp only [StackEntry.after, hi]
    refine h.tail ?_ hsp hmemory
    intro hnil
    have htop := hrespects.pop hi
    simp [hnil] at htop
  | returned hi hsome hsp hmemory hpr =>
    simp only [StackEntry.after, hi]
    exact h.tail (fun hnil => hsome (h.sp_eq_zero_iff.mpr hnil)) hsp hmemory
  | ended hi hempty hsp hmemory =>
    have hnil := h.sp_eq_zero_iff.mp hempty
    simp only [StackEntry.after, hi, hnil, List.tail_nil]
    exact (hnil ▸ h).congr hsp (by simp)
  | spared hi hsp hmemory =>
    rw [StackEntry.after_of_usesStack hi]
    refine h.congr hsp ?_
    intro k hk
    apply hmemory
    intro hstored
    have hne : entries ≠ [] := List.ne_nil_of_length_pos (Nat.zero_lt_of_lt hk)
    have hbelow := hrespects.stores hne _ hstored
    rw [UInt16.lt_iff_toNat_lt, h.toNat_address hk, h.toNat_sp hne] at hbelow
    omega

end holds

end Machine

namespace CallStack

/-- One frame for the beginning and one for each call that has not returned. Every frame but the
innermost one tells the line of its call. -/
structure Mirrors (stack : CallStack) (entries : List StackEntry) : Prop where
  depth : stack.depth = 1 + (StackEntry.callLines entries).length
  callLines : stack.frames.tail.map (·.callLine) = (StackEntry.callLines entries).map some

variable {stack : CallStack} {entries : List StackEntry}

theorem mirrors_start (entry : String) : (start entry).Mirrors [] := ⟨rfl, rfl⟩

theorem Mirrors.enter (h : stack.Mirrors entries) (address : Word) (line : Nat)
    (subroutine : String) :
    (stack.enter line subroutine).Mirrors (.ret address line :: entries) := by
  have hcons : StackEntry.callLines (.ret address line :: entries) =
      line :: StackEntry.callLines entries := rfl
  obtain ⟨hdepth, hlines⟩ := h
  obtain ⟨_ | ⟨caller, rest⟩⟩ := stack
  · simp [CallStack.depth] at hdepth
    omega
  · refine ⟨?_, ?_⟩
    · rw [depth_enter, hdepth, hcons, List.length_cons]
      omega
    · rw [hcons]
      simpa [CallStack.enter] using hlines

/-- The program's own values have no frames. -/
theorem mirrors_value_iff : stack.Mirrors (.value :: entries) ↔ stack.Mirrors entries :=
  ⟨fun h => ⟨h.depth, h.callLines⟩, fun h => ⟨h.depth, h.callLines⟩⟩

/-- A return leaves the frame of the call that it returns from. -/
theorem Mirrors.leave {address : Word} {line : Nat} {rest : List StackEntry}
    (h : stack.Mirrors (.ret address line :: rest)) :
    stack.leave.2.Mirrors rest ∧ stack.leave.2.frames = stack.frames.tail := by
  have hcons : StackEntry.callLines (.ret address line :: rest) =
      line :: StackEntry.callLines rest := rfl
  obtain ⟨hdepth, hlines⟩ := h
  rw [hcons] at hdepth hlines
  obtain ⟨_ | ⟨innermost, _ | ⟨caller, callers⟩⟩⟩ := stack
  · simp [CallStack.depth] at hdepth
  · simp [CallStack.depth] at hdepth
  · simp only [CallStack.depth, List.length_cons, List.tail_cons, List.map_cons, List.cons.injEq]
      at hdepth hlines
    refine ⟨⟨?_, hlines.2⟩, rfl⟩
    simp only [CallStack.leave, CallStack.depth, List.length_cons]
    omega

end CallStack

namespace Instruction

theorem kind_eq_call_iff (i : Instruction) : i.kind = .call ↔ i.mnemonic = .call := by
  unfold kind
  split <;> (try split) <;> simp_all

theorem kind_eq_ret_iff (i : Instruction) : i.kind = .ret ↔ i.mnemonic = .ret := by
  unfold kind
  split <;> (try split) <;> simp_all

end Instruction

namespace LineStepper

/-- The instruction that is executed by leaving the line, if any is. -/
def executed? (t : LineStepper) (line : Nat) : Option Instruction :=
  if t.executes line then (t.machine.instructionAt t.machine.pr).toOption else none

/-- The entries on the stack of the machine after the line has been left. -/
def entriesAfter (t : LineStepper) (line : Nat) (entries : List StackEntry) : List StackEntry :=
  match t.executed? line with
  | some i => StackEntry.after i t.machine.pr line entries
  | none => entries

/-- If an instruction is executed by leaving the line, then it respects the stack. -/
def Respects (t : LineStepper) (line : Nat) (entries : List StackEntry) : Prop :=
  ∀ i ∈ t.executed? line, t.machine.Respects i t.input entries

instance (t : LineStepper) (line : Nat) (entries : List StackEntry) :
    Decidable (t.Respects line entries) :=
  inferInstanceAs (Decidable (∀ i ∈ t.executed? line, _))

/-- The line has been left without an error, and the program has not ended. -/
def goesOn (t : LineStepper) (line : Nat) : Bool :=
  match (t.stepLine line).1 with
  | .ok (.moved _) | .ok (.waits _) => true
  | _ => false

/-- A client has launched a program in the stepper `t₀` and has driven it on to the stepper `t`,
giving and taking lines as it likes. No instruction so far has ended the program or failed, and all
of them have respected the stack, which now holds the entries. -/
inductive Driven (t₀ : LineStepper) : LineStepper → List StackEntry → Prop
  | launched : Driven t₀ t₀ []
  | left {t : LineStepper} {entries : List StackEntry} (line : Nat) (h : Driven t₀ t entries)
      (hrespects : t.Respects line entries) (hgoes : t.goesOn line = true) :
      Driven t₀ (t.stepLine line).2 (t.entriesAfter line entries)
  | given {t : LineStepper} {entries : List StackEntry} (text : String)
      (h : Driven t₀ t entries) : Driven t₀ (t.setInput text) entries
  | taken {t : LineStepper} {entries : List StackEntry} (h : Driven t₀ t entries) :
      Driven t₀ t.takeOutput.2 entries

/-- The frames and the stack of the machine correspond. -/
structure Corresponds (t : LineStepper) (entries : List StackEntry) : Prop where
  machine : t.machine.Holds entries
  stack : t.stack.Mirrors entries

section left

variable {t : LineStepper} {p : Program} {line : Nat} {entries : List StackEntry}

theorem executed?_of_kind {kind : InstructionKind} (hp : t.program = some p)
    (hentry : p.debug.isEntryLine line = false) (hkind : t.machine.nextKind = .ok kind)
    (hgate : ¬ t.Gated kind) :
    ∃ i, t.machine.instructionAt t.machine.pr = .ok i ∧ i.kind = kind ∧
      t.executed? line = some i := by
  have hexecutes : t.executes line = true := by
    simp [executes, isEntryLine, hp, hentry, hkind, hgate]
  unfold Machine.nextKind at hkind
  cases hi : t.machine.instructionAt t.machine.pr with
  | error f => simp [hi, Except.map] at hkind
  | ok i =>
    refine ⟨i, rfl, by simpa [hi, Except.map] using hkind, ?_⟩
    simp [executed?, hexecutes, hi, Except.toOption]

/-- Leaving a line either executes nothing and changes nothing, or executes an instruction and
settles the frames by its kind. -/
theorem stepLine_executed (hp : t.program = some p) {outcome : LineStep}
    (h : (t.stepLine line).1 = .ok outcome) :
    (t.executed? line = none ∧ (t.stepLine line).2 = t ∧ ∀ next, outcome ≠ .ended next) ∨
    ∃ i halted, t.executed? line = some i ∧ t.machine.instructionAt t.machine.pr = .ok i ∧
      t.execute.1 = .ok halted ∧
      t.stepLine line = t.execute.2.settle p.debug line i.kind halted := by
  have hleaves := t.stepLine_leaves p line hp
  have hpair : t.stepLine line = ((t.stepLine line).1, (t.stepLine line).2) := rfl
  rw [hpair]
  generalize (t.stepLine line).1 = result, (t.stepLine line).2 = t' at h hleaves ⊢
  cases hleaves with
  | start hentry =>
    refine Or.inl ⟨?_, rfl, ?_⟩
    · simp [executed?, executes, isEntryLine, hp, hentry]
    · intro next hended
      simp [hended] at h
  | undecoded | fault => simp at h
  | gate hentry hkind hinput =>
    refine Or.inl ⟨?_, rfl, ?_⟩
    · simp [executed?, executes, isEntryLine, hp, hkind, Gated, hinput]
    · intro next hended
      simp [hended] at h
  | executed hentry kind hkind hgate halted hrun =>
    obtain ⟨i, hi, rfl, hexecuted⟩ := executed?_of_kind hp hentry hkind hgate
    exact Or.inr ⟨i, halted, hexecuted, hi, hrun, rfl⟩

theorem settle_stack_of_other {kind : InstructionKind} (hcall : kind ≠ .call) (hret : kind ≠ .ret)
    (d : DebugMap) (halted : Bool) : (t.settle d line kind halted).2.stack = t.stack := by
  cases kind with
  | call => exact absurd rfl hcall
  | ret => exact absurd rfl hret
  | input | other => rfl

theorem settle_call {d : DebugMap} {halted : Bool} {outcome : LineStep}
    (h : (t.settle d line .call halted).1 = .ok outcome) :
    ∃ callee, d.subroutineAt t.machine.pr = some callee ∧
      (t.settle d line .call halted).2.stack = t.stack.enter line callee.name := by
  cases hcallee : d.subroutineAt t.machine.pr with
  | none => simp [settle, hcallee] at h
  | some callee => exact ⟨callee, rfl, by simp [settle, hcallee]⟩

theorem execute_stackEffect {i : Instruction} {halted : Bool} (hhalted : t.machine.halted = false)
    (hi : t.machine.instructionAt t.machine.pr = .ok i) (hdestination : i.destination? ≠ some 8)
    (hrun : t.execute.1 = .ok halted) :
    t.machine.StackEffect i t.input halted t.execute.2.machine := by
  have hstep : (t.machine.stepOn LineQueue.console
      { input := t.input.toList, output := t.output }).result = .ok halted := hrun
  have heffect := Machine.stepOn_stackEffect hhalted hi hdestination hstep
  have hline : (LineQueue.console.readLine { input := t.input.toList, output := t.output }).1 =
      t.input := by
    cases hinput : t.input <;> simp [LineQueue.console]
  rwa [hline] at heffect

/-- Frames and stack still correspond after an instruction that respects the stack. -/
theorem Corresponds.executed {i : Instruction} {halted : Bool} {d : DebugMap} {outcome : LineStep}
    (h : t.Corresponds entries)
    (heffect : t.machine.StackEffect i t.input halted t.execute.2.machine)
    (hrespects : t.machine.Respects i t.input entries)
    (hok : (t.execute.2.settle d line i.kind halted).1 = .ok outcome) :
    (t.execute.2.settle d line i.kind halted).2.Corresponds
      (StackEntry.after i t.machine.pr line entries) := by
  have hmachine := h.machine.step hrespects heffect line
  rw [← settle_machine t.execute.2 d line i.kind halted] at hmachine
  refine ⟨hmachine, ?_⟩
  have hstack : t.execute.2.stack.Mirrors entries := h.stack
  have hother (hcall : i.mnemonic ≠ .call) (hret : i.mnemonic ≠ .ret) :
      (t.execute.2.settle d line i.kind halted).2.stack = t.execute.2.stack :=
    settle_stack_of_other (fun hk => hcall (i.kind_eq_call_iff.mp hk))
      (fun hk => hret (i.kind_eq_ret_iff.mp hk)) d halted
  cases heffect with
  | pushed hi =>
    rw [hother (by simp [hi]) (by simp [hi])]
    simp only [StackEntry.after, hi]
    exact CallStack.mirrors_value_iff.mpr hstack
  | called hi =>
    have hkind := i.kind_eq_call_iff.mpr hi
    rw [hkind] at hok ⊢
    obtain ⟨callee, -, hentered⟩ := settle_call hok
    rw [hentered]
    simp only [StackEntry.after, hi]
    exact hstack.enter _ line callee.name
  | popped hi =>
    rw [hother (by simp [hi]) (by simp [hi])]
    simp only [StackEntry.after, hi]
    obtain ⟨rest, hrest⟩ := List.head?_eq_some_iff.mp (hrespects.pop hi)
    rw [hrest] at hstack ⊢
    exact CallStack.mirrors_value_iff.mp hstack
  | returned hi hsome =>
    have hkind := i.kind_eq_ret_iff.mpr hi
    obtain ⟨from', rest, rfl⟩ := h.machine.exists_ret hsome (hrespects.ret hi)
    rw [hkind]
    simp only [StackEntry.after, hi, settle, Bool.false_eq_true, if_false, List.tail_cons]
    exact hstack.leave.1
  | ended hi hempty =>
    have hkind := i.kind_eq_ret_iff.mpr hi
    have hnil := h.machine.sp_eq_zero_iff.mp hempty
    rw [hkind]
    simp only [StackEntry.after, hi, settle, if_true, hnil, List.tail_nil]
    exact hnil ▸ hstack
  | spared hi =>
    rw [StackEntry.after_of_usesStack hi, hother]
    · exact hstack
    · rintro hcall
      simp [hcall, Mnemonic.usesStack] at hi
    · rintro hret
      simp [hret, Mnemonic.usesStack] at hi

/-- A return goes on behind the innermost call, and its frame is gone. -/
theorem Corresponds.returned {i : Instruction} {halted : Bool} {d : DebugMap} {outcome : LineStep}
    {address : Word} {callLine : Nat} {rest : List StackEntry}
    (h : t.Corresponds (.ret address callLine :: rest))
    (heffect : t.machine.StackEffect i t.input halted t.execute.2.machine)
    (hi : i.mnemonic = .ret) (hok : (t.execute.2.settle d line i.kind halted).1 = .ok outcome) :
    (t.execute.2.settle d line i.kind halted).2.machine.pr = address ∧
      (t.execute.2.settle d line i.kind halted).2.stack.frames = t.stack.frames.tail ∧
      outcome = .moved (d.lineAt address) := by
  have hsome : t.machine.sp ≠ 0 := fun hsp =>
    List.cons_ne_nil _ _ (h.machine.sp_eq_zero_iff.mp hsp)
  have hstack : t.execute.2.stack.Mirrors (.ret address callLine :: rest) := h.stack
  have hkind := i.kind_eq_ret_iff.mpr hi
  cases heffect with
  | pushed hother | called hother | popped hother =>
    rw [hi] at hother
    cases hother
  | spared hother =>
    rw [hi] at hother
    cases hother
  | ended _ hempty => exact absurd hempty hsome
  | returned _ _ _ _ hpr =>
    rw [h.machine.read_sp] at hpr
    rw [settle_machine, hkind]
    rw [hkind] at hok
    simp only [settle, Bool.false_eq_true, if_false, hpr, Except.ok.injEq] at hok ⊢
    exact ⟨trivial, hstack.leave.2, hok.symm⟩

/-- The program ends by a return from the stack when that is empty, and in no other way. -/
theorem Corresponds.halted_iff {i : Instruction} {halted : Bool} (h : t.Corresponds entries)
    (heffect : t.machine.StackEffect i t.input halted t.execute.2.machine) :
    halted = true ↔ entries = [] ∧ i.mnemonic = .ret := by
  have hempty := h.machine.sp_eq_zero_iff
  cases heffect with
  | ended hi hsp => simp [hi, hempty.mp hsp]
  | returned hi hsome =>
    have hne : entries ≠ [] := fun hnil => hsome (hempty.mpr hnil)
    simp [hne]
  | pushed hi | called hi | popped hi => simp [hi]
  | spared hi =>
    simp only [Bool.false_eq_true, false_iff, not_and]
    rintro - hret
    simp [hret, Mnemonic.usesStack] at hi

theorem settle_ended_iff {d : DebugMap} {kind : InstructionKind} {halted : Bool}
    {outcome : LineStep} (h : (t.settle d line kind halted).1 = .ok outcome) :
    (∃ next, outcome = .ended next) ↔ halted = true := by
  rw [settle_answer] at h
  split at h
  · cases h
  · cases halted <;> simp at h <;> simp [← h]

end left

/-- What holds along a run that a client drives on. -/
structure Runs (t : LineStepper) (entries : List StackEntry) : Prop where
  loaded : ∃ p, t.program = some p
  halted : t.machine.halted = false
  corresponds : t.Corresponds entries

section runs

variable {s t t₀ : LineStepper} {entries : List StackEntry}

theorem runs_of_launch {compiled : Assembled} {options : MachineOptions}
    (h : s.launch compiled options = (.ok [], t₀)) : t₀.Runs [] := by
  rcases s.launch_cases compiled options with
    ⟨p, m, entry, -, -, -, hload, hlaunch⟩ | ⟨hfailed, -⟩
  · rw [hlaunch, Prod.mk.injEq] at h
    obtain ⟨-, rfl⟩ := h
    refine ⟨⟨p, rfl⟩, ?_, ⟨Machine.Holds.load hload, CallStack.mirrors_start entry.name⟩⟩
    unfold Machine.load at hload
    split at hload
    · cases hload
    · cases hload
      rfl
  · rw [h] at hfailed
    exact absurd rfl hfailed

theorem Runs.corresponds_left (h : t.Runs entries) {line : Nat} {outcome : LineStep}
    (hrespects : t.Respects line entries) (hok : (t.stepLine line).1 = .ok outcome) :
    (t.stepLine line).2.Corresponds (t.entriesAfter line entries) := by
  obtain ⟨p, hp⟩ := h.loaded
  rcases stepLine_executed hp hok with ⟨hnone, hsame, -⟩ | ⟨i, halted, hsome, hi, hrun, hstep⟩
  · rw [hsame, entriesAfter, hnone]
    exact h.corresponds
  · have hrespects' := hrespects i hsome
    have heffect := execute_stackEffect h.halted hi hrespects'.destination hrun
    rw [hstep] at hok ⊢
    rw [entriesAfter, hsome]
    exact h.corresponds.executed heffect hrespects' hok

theorem Driven.runs (h : Driven t₀ t entries) (h₀ : t₀.Runs []) : t.Runs entries := by
  induction h with
  | launched => exact h₀
  | @left t entries line _ hrespects hgoes ih =>
    obtain ⟨p, hp⟩ := ih.loaded
    obtain ⟨outcome, hok, hnext⟩ : ∃ outcome, (t.stepLine line).1 = .ok outcome ∧
        ∀ next, outcome ≠ .ended next := by
      unfold goesOn at hgoes
      split at hgoes
      · exact ⟨_, by assumption, by simp⟩
      · exact ⟨_, by assumption, by simp⟩
      · cases hgoes
    refine ⟨⟨p, stepLine_program hp⟩, ?_, ih.corresponds_left hrespects hok⟩
    rcases stepLine_executed hp hok with ⟨-, hsame, -⟩ | ⟨i, halted, -, -, hrun, hstep⟩
    · rw [hsame]
      exact ih.halted
    · rw [hstep] at hok ⊢
      have hhalted := mt (settle_ended_iff hok).mpr fun ⟨next, hended⟩ => hnext next hended
      rw [settle_machine]
      exact (Machine.stepOn_halted hrun).trans (by simpa using hhalted)
  | given text _ ih => exact ⟨ih.loaded, ih.halted, ⟨ih.corresponds.machine, ih.corresponds.stack⟩⟩
  | taken _ ih => exact ⟨ih.loaded, ih.halted, ⟨ih.corresponds.machine, ih.corresponds.stack⟩⟩

/-- In a run whose instructions respect the stack, frames and stack correspond after every step. A
return from a call goes on behind that call and leaves its frame, and a step ends the program
exactly if it executes a return while the stack is empty. A call that reaches no subroutine is an
error, and so the last step of the run. -/
theorem frames_correspond_to_machine_stack {compiled : Assembled} {options : MachineOptions}
    (hlaunch : s.launch compiled options = (.ok [], t₀)) (hdriven : Driven t₀ t entries) :
    t.Corresponds entries ∧
    ∀ line outcome, t.Respects line entries → (t.stepLine line).1 = .ok outcome →
      (t.stepLine line).2.Corresponds (t.entriesAfter line entries) ∧
      (∀ i address callLine rest, t.executed? line = some i → i.mnemonic = .ret →
        entries = .ret address callLine :: rest →
        (t.stepLine line).2.machine.pr = address ∧
          (t.stepLine line).2.stack.frames = t.stack.frames.tail ∧
          ∃ p, t.program = some p ∧ outcome = .moved (p.debug.lineAt address)) ∧
      ((∃ next, outcome = .ended next) ↔
        entries = [] ∧ ∃ i, t.executed? line = some i ∧ i.mnemonic = .ret) := by
  have hruns := hdriven.runs (runs_of_launch hlaunch)
  refine ⟨hruns.corresponds, ?_⟩
  intro line outcome hrespects hok
  refine ⟨hruns.corresponds_left hrespects hok, ?_⟩
  obtain ⟨p, hp⟩ := hruns.loaded
  rcases stepLine_executed hp hok with ⟨hnone, -, hgoes⟩ | ⟨i, halted, hsome, hi, hrun, hstep⟩
  · refine ⟨by simp [hnone], ?_⟩
    simp only [hnone, reduceCtorEq, false_and, exists_false, and_false, iff_false, not_exists]
    exact hgoes
  · have heffect := execute_stackEffect hruns.halted hi (hrespects i hsome).destination hrun
    rw [hstep] at hok ⊢
    constructor
    · intro i' address callLine rest hsome' hret hentries
      obtain rfl : i = i' := Option.some.inj (hsome.symm.trans hsome')
      obtain ⟨hpr, hframes, hmoved⟩ :=
        (hentries ▸ hruns.corresponds).returned heffect hret hok
      exact ⟨hpr, hframes, p, hp, hmoved⟩
    · rw [settle_ended_iff hok, hruns.corresponds.halted_iff heffect]
      simp [hsome]

/-- Leaves the lines one after the other, as long as the stack is respected and the run goes on. -/
def drive (t : LineStepper) (entries : List StackEntry) :
    List Nat → Option (LineStepper × List StackEntry)
  | [] => some (t, entries)
  | line :: rest =>
    if t.Respects line entries ∧ t.goesOn line = true then
      (t.stepLine line).2.drive (t.entriesAfter line entries) rest
    else none

theorem Driven.drive (h : Driven t₀ t entries) {lines : List Nat} {u : LineStepper}
    {left : List StackEntry} (hdrive : t.drive entries lines = some (u, left)) :
    Driven t₀ u left := by
  induction lines generalizing t entries with
  | nil =>
    simp only [LineStepper.drive, Option.some.injEq, Prod.mk.injEq] at hdrive
    obtain ⟨rfl, rfl⟩ := hdrive
    exact h
  | cons line rest ih =>
    rw [LineStepper.drive] at hdrive
    by_cases hstep : t.Respects line entries ∧ t.goesOn line = true
    · rw [if_pos hstep] at hdrive
      exact ih (.left line h hstep.1 hstep.2) hdrive
    · rw [if_neg hstep] at hdrive
      cases hdrive

end runs

/-- The subroutine puts a value on top of its return address and takes it back. -/
def savingSource : String :=
  "MAIN START\n CALL SUB\n RET\n END\nSUB START\n PUSH 7\n POP GR1\n RET\n END\n"

def savingStepper : LineStepper :=
  (({} : LineStepper).launch (assemble savingSource {}) {}).2

/-- At its return the subroutine finds the address behind the call on line 1. -/
theorem saving_subroutine_corresponds : ∃ t,
    savingStepper.drive [] [0, 1, 4, 5, 6] = some (t, [.ret 2 1]) ∧ t.Corresponds [.ret 2 1] ∧
      t.Respects 7 [.ret 2 1] ∧ (t.stepLine 7).1 = .ok (.moved (some 2)) ∧
      (t.stepLine 7).2.Corresponds [] ∧ (t.stepLine 7).2.machine.pr = 2 := by
  have hlaunched : (({} : LineStepper).launch (assemble savingSource {}) {}).1.toOption =
      some [] := by decide +kernel
  have hlaunch : ({} : LineStepper).launch (assemble savingSource {}) {} =
      (.ok [], savingStepper) := by
    unfold savingStepper
    generalize ({} : LineStepper).launch (assemble savingSource {}) {} = x at hlaunched
    obtain ⟨_ | diagnostics, t⟩ := x
    · cases hlaunched
    · simp only [Except.toOption, Option.some.injEq] at hlaunched
      rw [hlaunched]
  have hrun : (savingStepper.drive [] [0, 1, 4, 5, 6]).map (fun r => (r.2,
      decide (r.1.Respects 7 [.ret 2 1]), (r.1.stepLine 7).1.toOption,
      r.1.entriesAfter 7 [.ret 2 1], (r.1.executed? 7).map (·.mnemonic))) =
      some ([.ret 2 1], true, some (.moved (some 2)), [], some .ret) := by decide +kernel
  obtain ⟨⟨t, entries⟩, hdrive, hfacts⟩ := Option.map_eq_some_iff.mp hrun
  simp only [Prod.mk.injEq, decide_eq_true_eq] at hfacts
  obtain ⟨rfl, hrespects, houtcome, hafter, hexecuted⟩ := hfacts
  have hok : (t.stepLine 7).1 = .ok (.moved (some 2)) := by
    cases hresult : (t.stepLine 7).1 with
    | error e => simp [hresult, Except.toOption] at houtcome
    | ok outcome => simpa [hresult, Except.toOption] using houtcome
  obtain ⟨i, hi, hret⟩ := Option.map_eq_some_iff.mp hexecuted
  obtain ⟨hnow, hstep⟩ :=
    frames_correspond_to_machine_stack hlaunch (Driven.drive .launched hdrive)
  obtain ⟨hthen, hreturn, -⟩ := hstep 7 _ hrespects hok
  rw [hafter] at hthen
  exact ⟨t, hdrive, hnow, hrespects, hok, hthen, (hreturn i 2 1 [] hi hret rfl).1⟩

end LineStepper

end Comet
