import Comet.Proofs.Assembly.Reading

namespace Comet

theorem Mnemonic.registerOpcode_eq_none {m : Mnemonic} (h : m.form.hasAddress = false) :
    m.registerOpcode = none := by
  have hall : ∀ m ∈ all, m.form.hasAddress = false → m.registerOpcode = none := by decide
  exact hall m (mem_all m) h

theorem Mnemonic.registerOpcode_isSome {m : Mnemonic} (h : m.form = .registerAddressOrRegister) :
    m.registerOpcode.isSome = true := by
  have hall : ∀ m ∈ all, m.form = .registerAddressOrRegister → m.registerOpcode.isSome = true := by
    decide
  exact hall m (mem_all m) h

namespace Assembly

section constants

variable {cs digits : List Char} {cells : List Cell}

theorem stringConstant_eq_ok (h : stringConstant cs = .ok cells) :
    cells ≠ [] ∧ ∀ c ∈ cells, c.literal? = none := by
  unfold stringConstant at h
  rcases hquoted : Text.unquote cs with _ | _ | ⟨c, rest⟩
  · simp [hquoted] at h
  · simp [hquoted] at h
  · rw [hquoted] at h
    cases h
    simp [Cell.literal?]

theorem hexConstant_eq_ok (h : hexConstant cs digits = .ok cells) :
    cells ≠ [] ∧ ∀ c ∈ cells, c.literal? = none := by
  unfold hexConstant at h
  split at h
  · cases h
  · split at h
    · cases h
      simp [Cell.literal?]
    · cases h

theorem decimalConstant_eq_ok (h : decimalConstant cs = .ok cells) :
    cells ≠ [] ∧ ∀ c ∈ cells, c.literal? = none := by
  unfold decimalConstant at h
  split at h
  · split at h
    · cases h
      simp [Cell.literal?]
    · cases h
  · cases h

theorem constant_eq_ok (h : constant cs = .ok cells) :
    cells ≠ [] ∧ ∀ c ∈ cells, c.literal? = none := by
  unfold constant at h
  split at h
  · exact stringConstant_eq_ok h
  · exact hexConstant_eq_ok h
  · split at h
    · exact decimalConstant_eq_ok h
    · split at h
      · cases h
        simp [Cell.literal?]
      · cases h
  · cases h

end constants

theorem literal?_of_constants {operands : List String} {cells : List Cell}
    (h : Pass.constants operands = .ok cells) : ∀ c ∈ cells, c.literal? = none := by
  obtain ⟨parts, hparts, hcells⟩ := (bind_eq_ok _ _ _).mp h
  obtain rfl : parts.flatten = cells := Except.ok.inj hcells
  intro c hc
  obtain ⟨part, hpart, hmem⟩ := List.mem_flatten.mp hc
  obtain ⟨text, -, htext⟩ := exists_of_mapM_eq_ok hparts hpart
  exact (constant_eq_ok htext).2 c hmem

theorem addressOperand_ne_nil {cs : List Char} {words : List Word}
    (h : addressOperand cs = .ok (.literal words)) : words ≠ [] := by
  unfold addressOperand at h
  split at h
  · obtain ⟨cells, hcells, h⟩ := (bind_eq_ok _ _ _).mp h
    cases hwords : cells.mapM Cell.value? with
    | none =>
      rw [hwords] at h
      cases h
    | some words' =>
      rw [hwords] at h
      obtain rfl : words' = words := Cell.literal.inj (Except.ok.inj h)
      obtain ⟨hne, -⟩ := constant_eq_ok hcells
      obtain ⟨cell, rest, rfl⟩ := List.exists_cons_of_ne_nil hne
      rw [List.mapM_cons] at hwords
      rintro rfl
      simp [Option.bind_eq_some_iff] at hwords
  · obtain ⟨cells, hcells, h⟩ := (bind_eq_ok _ _ _).mp h
    obtain ⟨-, hplain⟩ := constant_eq_ok hcells
    match cells with
    | [cell] =>
      obtain rfl : cell = .literal words := Except.ok.inj h
      cases hplain _ List.mem_cons_self
    | [] | _ :: _ :: _ => cases h

/-- Of the two forms that an instruction may have, it is in one that the machine has, and no literal
is without words. -/
structure SymbolicInstruction.WellFormed (i : SymbolicInstruction) : Prop where
  address : i.operand.isSome = true → i.mnemonic.form.hasAddress = true
  register : i.operand = none → i.mnemonic.form.hasAddress = true →
    i.mnemonic.registerOpcode.isSome = true
  literal : ∀ words, i.operand = some (.literal words) → words ≠ []

def Content.WellFormed : Content → Prop
  | .data cells => ∀ c ∈ cells, c.literal? = none
  | .code instructions => ∀ i ∈ instructions, i.WellFormed

namespace SymbolicInstruction

variable {options : AssemblyOptions} {m : Mnemonic} {i : SymbolicInstruction}

theorem Reads.wellFormed {operands : List String} (h : Reads options m operands i) :
    i.WellFormed := by
  cases h with
  | empty hform | register hform hr =>
    refine ⟨nofun, fun _ haddress => ?_, nofun⟩
    simp [hform, OperandForm.hasAddress] at haddress
  | registers hform => exact ⟨nofun, fun _ _ => Mnemonic.registerOpcode_isSome hform, nofun⟩
  | registerAddress index hform hr hadr hx | registerOrAddress index hform hlike hr hadr hx
  | address index hform hadr hx =>
    refine ⟨fun _ => by rw [hform]; rfl, nofun, fun words hwords => ?_⟩
    cases hwords
    exact addressOperand_ne_nil hadr

theorem save_wellFormed (r : RegisterField) : (save r).WellFormed := ⟨fun _ => rfl, nofun, nofun⟩

theorem restore_wellFormed (r : RegisterField) : (restore r).WellFormed := ⟨nofun, nofun, nofun⟩

end SymbolicInstruction

namespace Content

open SymbolicInstruction

theorem Reads.wellFormed {options : AssemblyOptions} {operation : Operation}
    {operands : List String} {content : Content} (h : Reads options operation operands content) :
    content.WellFormed := by
  cases h with
  | space => simp [WellFormed, Cell.literal?]
  | constants _ hcells => exact literal?_of_constants hcells
  | transfer hbuffer hlength =>
    have hlad (r : RegisterField) {text : String} {cell : Cell}
        (hcell : addressOperand text.toList = .ok cell) :
        (⟨.lad, r, 0, some cell⟩ : SymbolicInstruction).WellFormed := by
      refine ⟨fun _ => rfl, nofun, ?_⟩
      rintro words ⟨⟩
      exact addressOperand_ne_nil hcell
    have hsvc (w : Word) : (⟨.svc, 0, 0, some (.value w)⟩ : SymbolicInstruction).WellFormed :=
      ⟨fun _ => rfl, nofun, nofun⟩
    simp only [WellFormed, SymbolicInstruction.transfer, List.forall_mem_cons]
    exact ⟨save_wellFormed 1, save_wellFormed 2, hlad 1 hbuffer, hlad 2 hlength, hsvc _,
      restore_wellFormed 2, restore_wellFormed 1, by simp⟩
  | save => simp [WellFormed, save_wellFormed]
  | restore => simp [WellFormed, restore_wellFormed]
  | machine hi => simpa [WellFormed] using hi.wellFormed

theorem wellFormed_of_read? {options : AssemblyOptions} {name : String} {operands : List String}
    {content : Content} (h : read? options name operands = some content) : content.WellFormed := by
  obtain ⟨operation, -, hreads⟩ := read?_eq_some_iff.mp h
  exact hreads.wellFormed

theorem Readable.wellFormed {options : AssemblyOptions} {content : Content}
    (h : content.Readable options) : content.WellFormed := by
  obtain ⟨name, operands, hread⟩ := h
  exact wellFormed_of_read? hread

end Content

end Assembly

end Comet
