import Comet.Proofs.Machine.StraightLine

namespace Comet

/-- The part of `IN` and `OUT` in front of the supervisor call. -/
def transferSetup (buffer length : Word) : List Instruction :=
  [⟨.push, 0, 1, some 0⟩, ⟨.push, 0, 2, some 0⟩, ⟨.lad, 1, 0, some buffer⟩,
    ⟨.lad, 2, 0, some length⟩]

/-- The instructions of `IN` and `OUT`, for the service of the one or the other. -/
def transferCode (service buffer length : Word) : List Instruction :=
  transferSetup buffer length ++
    [⟨.svc, 0, 0, some service⟩, ⟨.pop, 2, 0, none⟩, ⟨.pop, 1, 0, none⟩]

/-- The characters of a line that are stored. -/
def inputChars (line : Option String) : List Char := (line.getD "").toList.take maxInput

/-- The word for the length, and as many words of the buffer. -/
def transferAddresses (buffer length : Word) (count : Nat) : List Word :=
  length :: (List.range count).map fun k => buffer + .ofNat k

namespace Machine

/-- The two words that are put on the stack are apart from the code, and those of the transfer are
apart from the code and from them. -/
structure TransferRoom (m : Machine) (buffer length : Word) (count : Nat) : Prop where
  stack : ∀ k < 12, m.sp - 1 ≠ m.pr + .ofNat k ∧ m.sp - 2 ≠ m.pr + .ofNat k
  code : ∀ a ∈ transferAddresses buffer length count, ∀ k < 12, a ≠ m.pr + .ofNat k
  saved : ∀ a ∈ transferAddresses buffer length count, a ≠ m.sp - 1 ∧ a ≠ m.sp - 2

/-- What `IN` does with the answer of the console. -/
structure LineStored (m : Machine) (buffer length : Word) (line : Option String) (m' : Machine) :
    Prop where
  others : m' = { m with pr := m.pr + 12, memory := m'.memory }
  frame : ∀ a ∉ transferAddresses buffer length (inputChars line).length,
    a ≠ m.sp - 1 → a ≠ m.sp - 2 → m'.read a = m.read a
  counted : m'.read length = if line.isSome then .ofNat (inputChars line).length else 0xFFFF
  stored : ∀ k c, (inputChars line)[k]? = some c → buffer + .ofNat k ≠ length →
    m'.read (buffer + .ofNat k) = Word.ofChar c

/-- What `OUT` does to the machine. -/
structure LineFetched (m m' : Machine) : Prop where
  others : m' = { m with pr := m.pr + 12, memory := m'.memory }
  frame : ∀ a, a ≠ m.sp - 1 → a ≠ m.sp - 2 → m'.read a = m.read a

/-- The words of a buffer as text. -/
def textAt (m : Machine) (buffer : Word) (count : Nat) : String :=
  .ofList ((m.memory.readAll buffer count).map Word.toChar)

/-- The machine in front of the supervisor call: the two registers that the supervisor reads are on
the stack, and have been given the addresses of the transfer. -/
def prepared (m : Machine) (buffer length : Word) : Machine :=
  { m with
    memory := (m.memory.write (m.sp - 1) m.bufferAddress).write (m.sp - 2) m.lengthAddress
    sp := m.sp - 2
    gr := .ofFn fun r => if r.val = 1 then buffer else if r.val = 2 then length else m.gr.get r
    pr := m.pr + 8 }

section transfer

variable {σ : Type} {io : Console σ} {m : Machine} {s s' : σ} {code : Word → Prop}
  {service buffer length : Word} {count : Nat}

theorem set_operands (gr : Vector Word 8) (buffer length : Word) :
    (gr.set 1 buffer).set 2 length =
      .ofFn fun r => if r.val = 1 then buffer else if r.val = 2 then length else gr.get r := by
  ext i hi
  by_cases h2 : i = 2
  · simp [h2]
  · by_cases h1 : i = 1
    · simp [h1]
    · simp [h1, h2, Ne.symm h1, Ne.symm h2, Vector.get]

theorem restore_registers (gr : Vector Word 8) (buffer length : Word) :
    (((gr.set 1 buffer).set 2 length).set 2 gr[2]).set 1 gr[1] = gr := by
  rw [Vector.set_set, Vector.set_comm _ _ (by decide), Vector.set_set, Vector.set_getElem_self,
    Vector.set_getElem_self]

theorem straight_prepared (hm : m.halted = false) (htop : ¬ code (m.sp - 1))
    (hbelow : ¬ code (m.sp - 2)) :
    Straight io code m s (transferSetup buffer length) (m.prepared buffer length) s := by
  have hsp : m.sp - 1 - 1 = m.sp - 2 := by grind
  have hpr : m.pr + 2 + 2 + 2 + 2 = m.pr + 8 := by grind
  let m₁ : Machine := { m.push m.gr[1] with pr := m.pr + 2 }
  let m₂ : Machine := { m₁.push m₁.gr[2] with pr := m₁.pr + 2 }
  let m₃ : Machine := { m₂ with gr := m₂.gr.set 1 buffer, pr := m₂.pr + 2 }
  let m₄ : Machine := { m₃ with gr := m₃.gr.set 2 length, pr := m₃.pr + 2 }
  have h₁ : Straight io code m s [⟨.push, 0, 1, some 0⟩] m₁ s :=
    Straight.push (r := 1) hm (by decide) (by decide) htop
  have hbelow' : ¬ code (m₁.sp - 1) := by
    show ¬ code (m.sp - 1 - 1)
    rwa [hsp]
  have h₂ : Straight io code m₁ s [⟨.push, 0, 2, some 0⟩] m₂ s :=
    Straight.push (m := m₁) (r := 2) hm (by decide) (by decide) hbelow'
  have h₃ : Straight io code m₂ s [⟨.lad, 1, 0, some buffer⟩] m₃ s :=
    Straight.lad (m := m₂) (r := 1) hm (by decide) buffer
  have h₄ : Straight io code m₃ s [⟨.lad, 2, 0, some length⟩] m₄ s :=
    Straight.lad (m := m₃) (r := 2) hm (by decide) length
  have hmachine : m₄ = m.prepared buffer length := by
    simp only [m₄, m₃, m₂, m₁, push, write, prepared, hsp, hpr, set_operands]
    rfl
  have hall := ((h₁.append h₂).append h₃).append h₄
  rwa [hmachine] at hall

/-- The registers come back from the stack, and nothing but the memory tells of the call. -/
theorem straight_transfer {memory : Memory} (hm : m.halted = false) (htop : ¬ code (m.sp - 1))
    (hbelow : ¬ code (m.sp - 2))
    (hservice : Straight io code (m.prepared buffer length) s [⟨.svc, 0, 0, some service⟩]
      { m.prepared buffer length with memory, pr := m.pr + 10 } s')
    (hgr1 : memory.read (m.sp - 1) = m.gr[1]) (hgr2 : memory.read (m.sp - 2) = m.gr[2]) :
    Straight io code m s (transferCode service buffer length)
      { m with memory, pr := m.pr + 12 } s' := by
  have hsp₁ : m.sp - 2 + 1 = m.sp - 1 := by grind
  have hpr : m.pr + 10 + 1 + 1 = m.pr + 12 := by grind
  let m₅ : Machine := { m.prepared buffer length with memory, pr := m.pr + 10 }
  let m₆ : Machine :=
    { m₅ with gr := m₅.gr.set 2 (m₅.read m₅.sp), sp := m₅.sp + 1, pr := m₅.pr + 1 }
  let m₇ : Machine :=
    { m₆ with gr := m₆.gr.set 1 (m₆.read m₆.sp), sp := m₆.sp + 1, pr := m₆.pr + 1 }
  have h₆ : Straight io code m₅ s' [⟨.pop, 2, 0, none⟩] m₆ s' :=
    Straight.pop (m := m₅) (r := 2) hm (by decide)
  have h₇ : Straight io code m₆ s' [⟨.pop, 1, 0, none⟩] m₇ s' :=
    Straight.pop (m := m₆) (r := 1) hm (by decide)
  have hmachine : m₇ = { m with memory, pr := m.pr + 12 } := by
    simp only [m₇, m₆, m₅, prepared, ← set_operands, read, hsp₁, hpr, hgr1, hgr2,
      UInt16.sub_add_cancel, restore_registers]
  rw [← hmachine]
  exact (straight_prepared hm htop hbelow).append (hservice.append (h₆.append h₇))

/-- The words of the code from the program counter on. -/
def InTransfer (m : Machine) (a : Word) : Prop := ∃ k < 12, a = m.pr + .ofNat k

theorem TransferRoom.not_inTransfer (h : m.TransferRoom buffer length count) :
    ¬ m.InTransfer (m.sp - 1) ∧ ¬ m.InTransfer (m.sp - 2) ∧
      ∀ a ∈ transferAddresses buffer length count, ¬ m.InTransfer a := by
  refine ⟨?_, ?_, ?_⟩
  · rintro ⟨k, hk, hsame⟩
    exact (h.stack k hk).1 hsame
  · rintro ⟨k, hk, hsame⟩
    exact (h.stack k hk).2 hsame
  · rintro a ha ⟨k, hk, hsame⟩
    exact h.code a ha k hk hsame

theorem stepsOn_transfer {memory : Memory} (hm : m.halted = false)
    (hcode : m.memory.HasCode m.pr (transferCode service buffer length))
    (hroom : m.TransferRoom buffer length count)
    (hservice : Straight io m.InTransfer (m.prepared buffer length) s [⟨.svc, 0, 0, some service⟩]
      { m.prepared buffer length with memory, pr := m.pr + 10 } s')
    (hgr1 : memory.read (m.sp - 1) = m.gr[1]) (hgr2 : memory.read (m.sp - 2) = m.gr[2]) :
    m.stepsOn io s 7 = some ({ m with memory, pr := m.pr + 12 }, s') := by
  obtain ⟨htop, hbelow, -⟩ := hroom.not_inTransfer
  have hstraight := straight_transfer hm htop hbelow hservice hgr1 hgr2
  exact hstraight.stepsOn hcode fun k hk => ⟨k, hk, rfl⟩

theorem prepared_pr_add (m : Machine) (buffer length : Word) :
    (m.prepared buffer length).pr + 2 = m.pr + 10 := by
  show m.pr + 8 + 2 = m.pr + 10
  grind

theorem read_prepared_top (m : Machine) (buffer length : Word) :
    (m.prepared buffer length).read (m.sp - 1) = m.gr[1] := by
  have hne : m.sp - 1 ≠ m.sp - 2 := by grind
  show (Memory.write _ _ _).read _ = _
  rw [Memory.read_write, if_neg hne, Memory.read_write, if_pos rfl]
  rfl

theorem read_prepared_below (m : Machine) (buffer length : Word) :
    (m.prepared buffer length).read (m.sp - 2) = m.gr[2] := by
  show (Memory.write _ _ _).read _ = _
  rw [Memory.read_write, if_pos rfl]
  rfl

theorem read_prepared_of_ne (buffer length : Word) {a : Word} (htop : a ≠ m.sp - 1)
    (hbelow : a ≠ m.sp - 2) : (m.prepared buffer length).read a = m.read a := by
  show (Memory.write _ _ _).read _ = _
  rw [Memory.read_write, if_neg hbelow, Memory.read_write, if_neg htop]
  rfl

@[simp] theorem bufferAddress_prepared : (m.prepared buffer length).bufferAddress = buffer := by
  show (m.prepared buffer length).gr[1] = buffer
  simp [prepared]

@[simp] theorem lengthAddress_prepared : (m.prepared buffer length).lengthAddress = length := by
  show (m.prepared buffer length).gr[2] = length
  simp [prepared]

theorem inputAddresses_prepared (line : Option String) :
    (m.prepared buffer length).inputAddresses line =
      transferAddresses buffer length (inputChars line).length := by
  simp only [inputAddresses, bufferAddress_prepared, lengthAddress_prepared]
  rfl

theorem read_accept_length (line : Option String) : (m.accept line).read m.lengthAddress =
    if line.isSome then .ofNat (inputChars line).length else 0xFFFF := by
  cases line with
  | none =>
    show (Memory.write _ _ _).read _ = _
    rw [Memory.read_write, if_pos rfl]
    rfl
  | some text =>
    show (Memory.write _ _ _).read _ = _
    rw [Memory.read_write, if_pos rfl, List.length_map]
    rfl

theorem read_accept_buffer {line : Option String} {k : Nat} {c : Char}
    (hc : (inputChars line)[k]? = some c) (happart : m.bufferAddress + .ofNat k ≠ m.lengthAddress) :
    (m.accept line).read (m.bufferAddress + .ofNat k) = Word.ofChar c := by
  cases line with
  | none => simp [inputChars] at hc
  | some text =>
    obtain ⟨hk, rfl⟩ := List.getElem?_eq_some_iff.mp hc
    have hroom : ((inputChars (some text)).map Word.ofChar).length ≤ memorySize := by
      simp only [List.length_map, inputChars, List.length_take, maxInput, memorySize]
      omega
    have hk' : k < ((inputChars (some text)).map Word.ofChar).length := by
      rwa [List.length_map]
    show (Memory.write _ _ _).read _ = _
    rw [Memory.read_write, if_neg happart]
    exact (Memory.read_writeAll_of_lt m.memory m.bufferAddress hk' hroom).trans (List.getElem_map _)

theorem read_accept_prepared {line : Option String} {a : Word}
    (h : a ∉ transferAddresses buffer length (inputChars line).length) :
    ((m.prepared buffer length).accept line).read a = (m.prepared buffer length).read a := by
  apply read_accept_of_notMem
  rwa [inputAddresses_prepared]

/-- `IN` stores the line that it is given, and leaves all else as it was. -/
theorem input_transferred (hm : m.halted = false)
    (hcode : m.memory.HasCode m.pr (transferCode svcInput buffer length))
    (hroom : m.TransferRoom buffer length (inputChars (io.readLine s).1).length) :
    ∃ m', m.stepsOn io s 7 = some (m', (io.readLine s).2) ∧
      m.LineStored buffer length (io.readLine s).1 m' := by
  obtain ⟨-, -, htouched⟩ := hroom.not_inTransfer
  have hapart : ∀ a ∈ (m.prepared buffer length).inputAddresses (io.readLine s).1,
      ¬ m.InTransfer a := by
    rwa [inputAddresses_prepared]
  have hinput := Straight.input (m := m.prepared buffer length) hm hapart
  rw [prepared_pr_add] at hinput
  have hsaved : m.sp - 1 ∉ transferAddresses buffer length (inputChars (io.readLine s).1).length ∧
      m.sp - 2 ∉ transferAddresses buffer length (inputChars (io.readLine s).1).length :=
    ⟨fun hmem => (hroom.saved _ hmem).1 rfl, fun hmem => (hroom.saved _ hmem).2 rfl⟩
  generalize (io.readLine s).1 = line at hinput hroom hsaved ⊢
  have hmachine : (m.prepared buffer length).accept line = { m.prepared buffer length with
      memory := ((m.prepared buffer length).accept line).memory } := by
    cases line <;> rfl
  rw [hmachine] at hinput
  have hsteps := stepsOn_transfer hm hcode hroom hinput
    ((read_accept_prepared hsaved.1).trans (m.read_prepared_top buffer length))
    ((read_accept_prepared hsaved.2).trans (m.read_prepared_below buffer length))
  refine ⟨_, hsteps, rfl, ?_, ?_, ?_⟩
  · intro a ha htop hbelow
    exact (read_accept_prepared ha).trans (read_prepared_of_ne buffer length htop hbelow)
  · have hlength := (m.prepared buffer length).read_accept_length line
    rwa [lengthAddress_prepared] at hlength
  · intro k c hc happart
    have hbuffer := read_accept_buffer (m := m.prepared buffer length) hc
    rw [bufferAddress_prepared, lengthAddress_prepared] at hbuffer
    exact hbuffer happart

theorem outputText_prepared (hroom : m.TransferRoom buffer length (m.read length).toNat) :
    (m.prepared buffer length).outputText = m.textAt buffer (m.read length).toNat := by
  have hkept : ∀ a ∈ transferAddresses buffer length (m.read length).toNat,
      (m.prepared buffer length).read a = m.read a := by
    intro a ha
    obtain ⟨htop, hbelow⟩ := hroom.saved a ha
    exact read_prepared_of_ne buffer length htop hbelow
  rw [outputText, lengthAddress_prepared, bufferAddress_prepared, hkept length List.mem_cons_self]
  simp only [textAt, Memory.readAll]
  congr 2
  apply List.map_congr_left
  intro k hk
  exact hkept _ (List.mem_cons_of_mem _ (List.mem_map_of_mem hk))

/-- `OUT` writes one line, and leaves all but the two words of the stack as it was. -/
theorem output_transferred (hm : m.halted = false)
    (hcode : m.memory.HasCode m.pr (transferCode svcOutput buffer length))
    (hroom : m.TransferRoom buffer length (m.read length).toNat) :
    ∃ m', m.stepsOn io s 7 =
        some (m', io.writeLine s (m.textAt buffer (m.read length).toNat)) ∧
      m.LineFetched m' := by
  have houtput : Straight io m.InTransfer (m.prepared buffer length) s
      [⟨.svc, 0, 0, some svcOutput⟩] { m.prepared buffer length with pr := m.pr + 10 }
      (io.writeLine s (m.textAt buffer (m.read length).toNat)) := by
    rw [← prepared_pr_add, ← outputText_prepared hroom]
    exact .output hm
  have hsteps := stepsOn_transfer hm hcode hroom houtput (m.read_prepared_top buffer length)
    (m.read_prepared_below buffer length)
  exact ⟨_, hsteps, rfl, fun a htop hbelow => read_prepared_of_ne buffer length htop hbelow⟩

end transfer

end Machine

end Comet
