import Comet.Proofs.Machine.Faults
import Comet.Proofs.Machine.Transfer

namespace Comet

theorem Word.toChar_ofChar {c : Char} (h : c.toNat < memorySize) : toChar (ofChar c) = c := by
  have hcode : (ofChar c).toNat = c.toNat := UInt16.toNat_ofNat_of_lt' h
  have hvalid : (ofChar c).toNat.isValidChar := hcode ▸ c.valid
  unfold toChar
  rw [dif_pos hvalid]
  apply Char.toNat_inj.mp
  exact hcode

theorem Memory.length_readAll (memory : Memory) (a : Word) (count : Nat) :
    (memory.readAll a count).length = count := by
  simp [readAll]

/-- Completes a step with what the console gives and takes. -/
def Step.complete {σ : Type} (io : Console σ) (s : σ) : Step → Completed σ
  | .done m => ⟨.ok m.halted, m, s⟩
  | .reads m => ⟨.ok m.halted, m.accept (io.readLine s).1, (io.readLine s).2⟩
  | .writes text m => ⟨.ok m.halted, m, io.writeLine s text⟩
  | .fault f m => ⟨.error f, m, s⟩

namespace Machine

/-- The instruction calls the supervisor for the service. -/
structure AsksFor (m : Machine) (i : Instruction) (service : Word) : Prop where
  mnemonic : i.mnemonic = .svc
  address : m.effectiveAddress i = .ok service

section echo

variable {σ : Type} {io : Console σ} {m m' : Machine} {s s' : σ} {i j : Instruction}
  {line : String}

theorem stepOn_eq_complete (io : Console σ) (m : Machine) (s : σ) :
    m.stepOn io s = m.step.complete io s := by
  unfold stepOn Step.complete
  cases m.step <;> rfl

theorem AsksFor.reads (h : m.AsksFor i svcInput) (origin : Word) :
    m.execute i origin = .reads m := by
  simp only [execute, h.mnemonic, h.address, if_true]

theorem AsksFor.writes (h : m.AsksFor i svcOutput) (origin : Word) :
    m.execute i origin = .writes m.outputText m := by
  have hother : svcOutput ≠ svcInput := by decide
  simp only [execute, h.mnemonic, h.address, if_neg hother, if_true]

/-- Neither the memory nor the program counter takes part in it. -/
theorem AsksFor.moved {service : Word} (h : m.AsksFor i service) (memory : Memory) (pr : Word) :
    ({ m with memory, pr } : Machine).AsksFor i service :=
  ⟨h.mnemonic, (effectiveAddress_moved pr service).mpr h.address⟩

theorem accept_eq (m : Machine) (line : Option String) :
    m.accept line = { m with memory := (m.accept line).memory } := by
  cases line <;> rfl

/-- The words at which a line is stored hold its characters and their number. -/
theorem outputText_of_stored
    (hplane : ∀ c ∈ line.toList.take maxInput, c.toNat < memorySize)
    (hapart : ∀ k < (line.toList.take maxInput).length,
      m.lengthAddress ≠ m.bufferAddress + .ofNat k)
    (hbuffer : m'.bufferAddress = m.bufferAddress) (hlength : m'.lengthAddress = m.lengthAddress)
    (hkept : ∀ a ∈ m.inputAddresses (some line), m'.read a = (m.accept (some line)).read a) :
    m'.outputText = .ofList (line.toList.take maxInput) := by
  have hchars : inputChars (some line) = line.toList.take maxInput := rfl
  have hfits : (line.toList.take maxInput).length < memorySize := by
    rw [List.length_take]
    exact Nat.lt_of_le_of_lt (Nat.min_le_left _ _) (by decide)
  have hcount : (m'.read m'.lengthAddress).toNat = (line.toList.take maxInput).length := by
    rw [hlength, hkept _ List.mem_cons_self, read_accept_length, hchars]
    exact UInt16.toNat_ofNat_of_lt' hfits
  rw [outputText, hcount, hbuffer]
  congr 1
  apply List.ext_getElem
  · rw [List.length_map, Memory.length_readAll]
  · intro k hk hk'
    have hbehind : m.bufferAddress + .ofNat k ∈ m.inputAddresses (some line) :=
      List.mem_cons_of_mem _ (List.mem_map_of_mem (List.mem_range.mpr hk'))
    have hword : m'.read (m.bufferAddress + .ofNat k) =
        Word.ofChar (line.toList.take maxInput)[k] := by
      rw [hkept _ hbehind]
      exact read_accept_buffer (List.getElem?_eq_getElem hk') (hapart k hk').symm
    simp only [Memory.readAll, List.map_map, List.getElem_map, List.getElem_range,
      Function.comp_apply]
    show Word.toChar (m'.read (m.bufferAddress + .ofNat k)) = _
    rw [hword, Word.toChar_ofChar (hplane _ (List.getElem_mem hk'))]

/-- What the input service has stored, the output service writes: the first characters of the line,
whatever else has happened to the machine between the two. The line is stored in its words and
nowhere else. If the two calls stand one behind the other in memory, two steps carry them out. -/
theorem line_read_is_line_written (hline : io.readLine s = (some line, s'))
    (hplane : ∀ c ∈ line.toList.take maxInput, c.toNat < memorySize)
    (hapart : ∀ k < (line.toList.take maxInput).length,
      m.lengthAddress ≠ m.bufferAddress + .ofNat k)
    (hi : m.AsksFor i svcInput) :
    (∀ origin, (m.execute i origin).complete io s =
      ⟨.ok m.halted, m.accept (some line), s'⟩) ∧
    m.accept (some line) = { m with memory := (m.accept (some line)).memory } ∧
    (∀ a, a ≠ m.lengthAddress →
      (∀ k < (line.toList.take maxInput).length, a ≠ m.bufferAddress + .ofNat k) →
      (m.accept (some line)).read a = m.read a) ∧
    (∀ (m' : Machine) (j : Instruction) (origin : Word) (s₁ : σ),
      m'.bufferAddress = m.bufferAddress → m'.lengthAddress = m.lengthAddress →
      (∀ a ∈ m.inputAddresses (some line), m'.read a = (m.accept (some line)).read a) →
      m'.AsksFor j svcOutput →
      (m'.execute j origin).complete io s₁ =
        ⟨.ok m'.halted, m', io.writeLine s₁ (.ofList (line.toList.take maxInput))⟩) ∧
    ∀ j, m.halted = false → m.instructionAt m.pr = .ok i → m.AsksFor j svcOutput →
      (m.accept (some line)).instructionAt (m.pr + i.size) = .ok j →
      m.stepsOn io s 2 =
        some ({ m.accept (some line) with pr := m.pr + i.size + j.size },
          io.writeLine s' (.ofList (line.toList.take maxInput))) := by
  have hwritten (m' : Machine) {j : Instruction} (origin : Word) (s₁ : σ)
      (hbuffer : m'.bufferAddress = m.bufferAddress) (hlength : m'.lengthAddress = m.lengthAddress)
      (hkept : ∀ a ∈ m.inputAddresses (some line), m'.read a = (m.accept (some line)).read a)
      (hj : m'.AsksFor j svcOutput) : (m'.execute j origin).complete io s₁ =
        ⟨.ok m'.halted, m', io.writeLine s₁ (.ofList (line.toList.take maxInput))⟩ := by
    rw [hj.writes origin, outputText_of_stored hplane hapart hbuffer hlength hkept]
    rfl
  refine ⟨?_, accept_eq m (some line), ?_,
    fun m' j origin s₁ hbuffer hlength hkept => hwritten m' origin s₁ hbuffer hlength hkept, ?_⟩
  · intro origin
    rw [hi.reads origin, Step.complete, hline]
  · intro a hlength hbuffer
    apply read_accept_of_notMem
    simp only [inputAddresses, List.mem_cons, List.mem_map, List.mem_range, not_or, not_exists,
      not_and]
    exact ⟨hlength, fun k hk hsame => hbuffer k hk hsame.symm⟩
  · intro j hm hfound hj hbehind
    let m₁ : Machine := { m.accept (some line) with pr := m.pr + i.size }
    let m₂ : Machine := { m.accept (some line) with pr := m.pr + i.size + j.size }
    have hfirst : m.stepOn io s = ⟨.ok false, m₁, s'⟩ := by
      rw [stepOn_eq_complete, step_of_instructionAt hm hfound,
        (hi.moved m.memory (m.pr + i.size)).reads m.pr, Step.complete, hline]
      exact congrArg (fun halted => (⟨.ok halted, m₁, s'⟩ : Completed σ)) hm
    have hsecond : m₁.stepOn io s' =
        ⟨.ok false, m₂, io.writeLine s' (.ofList (line.toList.take maxInput))⟩ := by
      have hfound₁ : m₁.instructionAt m₁.pr = .ok j := hbehind
      have hj₂ : m₂.AsksFor j svcOutput := hj.moved _ (m.pr + i.size + j.size)
      rw [stepOn_eq_complete, step_of_instructionAt (m := m₁) hm hfound₁]
      refine (hwritten m₂ m₁.pr s' rfl rfl (fun _ _ => rfl) hj₂).trans ?_
      exact congrArg (fun halted => (⟨.ok halted, m₂, _⟩ : Completed σ)) hm
    rw [stepsOn_cons hfirst, stepsOn_cons hsecond, stepsOn]

end echo

/-- The two services, called one behind the other. The buffer goes round the end of memory, and the
length is right behind it. -/
def echoMachine : Machine where
  memory := Memory.zero.writeAll 0x100 [0xF000, 1, 0xF000, 2]
  gr := #v[0, 0xFFFE, 3, 0, 0, 0, 0, 0]
  pr := 0x100

theorem line_round_the_end_written :
    echoMachine.stepsOn LineQueue.console ⟨["é; '漢"], #[]⟩ 2 =
      some ({ echoMachine.accept (some "é; '漢") with pr := 0x104 }, ⟨[], #["é; '漢"]⟩) ∧
    (echoMachine.accept (some "é; '漢")).memory.readAll 0xFFFE 6 =
      [0xE9, 0x3B, 0x20, 0x27, 0x6F22, 5] := by
  have hi : echoMachine.AsksFor ⟨.svc, 0, 0, some 1⟩ svcInput := ⟨rfl, rfl⟩
  have hj : echoMachine.AsksFor ⟨.svc, 0, 0, some 2⟩ svcOutput := ⟨rfl, rfl⟩
  have hline : LineQueue.console.readLine ⟨["é; '漢"], #[]⟩ = (some "é; '漢", ⟨[], #[]⟩) := rfl
  have hplane : ∀ c ∈ "é; '漢".toList.take maxInput, c.toNat < memorySize := by
    have hall : ("é; '漢".toList.take maxInput).all (·.toNat < memorySize) = true := by decide
    simpa only [List.all_eq_true, decide_eq_true_eq] using hall
  obtain ⟨-, -, -, -, hsteps⟩ := line_read_is_line_written hline hplane (by decide) hi
  have hfirst : echoMachine.instructionAt echoMachine.pr = .ok ⟨.svc, 0, 0, some 1⟩ :=
    instructionAt_eq_ok_iff.mpr (by decide +kernel)
  have hsecond : (echoMachine.accept (some "é; '漢")).instructionAt (echoMachine.pr + 2) =
      .ok ⟨.svc, 0, 0, some 2⟩ := instructionAt_eq_ok_iff.mpr (by decide +kernel)
  exact ⟨hsteps _ rfl hfirst hj hsecond, by decide +kernel⟩

end Machine

end Comet
