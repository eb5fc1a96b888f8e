import Comet.Proofs.Assembly.TableSteps

namespace Comet.Assembly

namespace Pass

/-- Whatever becomes of the step, nothing is reported by it. -/
def Silent {α : Type} (x : Pass α) (s : Layout) : Prop :=
  match x.run s with
  | .ok _ t => t.diagnostics = s.diagnostics
  | .error _ t => t.diagnostics = s.diagnostics

namespace Silent

variable {α β : Type} {x : Pass α} {f : α → Pass β} {s : Layout} {options : AssemblyOptions}
  {line : Nat} {operands : List String}

theorem pure (a : α) : (Pure.pure a : Pass α).Silent s := rfl

theorem throw (e : SourceError) : (MonadExcept.throw e : Pass α).Silent s := rfl

theorem set {t : Layout} (h : t.diagnostics = s.diagnostics) :
    (MonadStateOf.set t : Pass PUnit).Silent s := h

theorem update {change : Layout → Layout} (h : (change s).diagnostics = s.diagnostics) :
    (modify change : Pass PUnit).Silent s := h

theorem bind (hx : x.Silent s) (hf : ∀ a t, (f a).Silent t) : (x >>= f).Silent s := by
  unfold Silent at hx ⊢
  rw [EStateM.run_bind]
  cases hrun : x.run s with
  | error e t => simpa only [hrun] using hx
  | ok a t =>
    simp only [hrun] at hx ⊢
    rw [← hx]
    exact hf a t

theorem get_bind {f : Layout → Pass β} (h : (f s).Silent s) : (get >>= f).Silent s := h

/-- A look at something that may be wrong leaves the layout as it is. -/
theorem ofExcept_bind {r : Except SourceError α} (hf : ∀ a, (f a).Silent s) :
    (Pass.ofExcept r >>= f).Silent s := by
  cases r with
  | ok a => exact hf a
  | error e => exact throw e

theorem modifyBlock (change : Block → Block) : (Pass.modifyBlock change).Silent s := rfl

theorem here : Pass.here.Silent s := by
  rw [Silent, run_here]
  by_cases hfree : s.location < memorySize
  · rw [if_pos hfree]
  · rw [if_neg hfree]

theorem reserve {size : Nat} : (Pass.reserve size).Silent s := by
  rw [Silent, run_reserve]
  by_cases hfits : s.location < memorySize ∧ s.location + size ≤ memorySize
  · rw [if_pos hfits]
  · rw [if_neg hfits]

theorem emit {isInstruction : Bool} {cells : List Cell} :
    (Pass.emit line isInstruction cells).Silent s :=
  reserve.bind fun _ _ => modifyBlock _

theorem forM {xs : List α} {f : α → Pass PUnit} (hf : ∀ a t, (f a).Silent t) :
    (xs.forM f).Silent s := by
  induction xs generalizing s with
  | nil => exact pure _
  | cons a rest ih => exact (hf a s).bind fun _ _ => ih

theorem defineLabel {name : String} : (Pass.defineLabel options name).Silent s := by
  refine here.bind fun _ _ => get_bind ?_
  split
  · exact ofExcept_bind fun _ => set rfl
  · exact ofExcept_bind fun _ => set rfl

theorem address (text : String) : (Pass.address text).Silent s := by
  refine ofExcept_bind fun cell => ?_
  split
  · exact (modifyBlock _).bind fun _ _ => pure _
  · exact pure _

theorem addressForm {m : Mnemonic} {r : RegisterField} {adr : String} {index : Option String} :
    (Pass.addressForm options m r adr index).Silent s :=
  ofExcept_bind fun _ => (address adr).bind fun _ _ => pure _

theorem registerAddressForm {m : Mnemonic} {r adr : String} {index : Option String} :
    (Pass.registerAddressForm options m r adr index).Silent s :=
  ofExcept_bind fun _ => addressForm

theorem registerForm {m : Mnemonic} {r₁ r₂ : String} :
    (Pass.registerForm options m r₁ r₂).Silent s := by
  unfold Pass.registerForm
  split
  · exact ofExcept_bind fun _ => ofExcept_bind fun _ => pure _
  · exact throw _

theorem instruction {m : Mnemonic} : (Pass.instruction options m operands).Silent s := by
  unfold Pass.instruction
  split
  · exact pure _
  · exact ofExcept_bind fun _ => pure _
  · exact registerAddressForm
  · exact registerAddressForm
  · split
    · exact registerForm
    · exact registerAddressForm
  · exact registerAddressForm
  · exact addressForm
  · exact addressForm
  · exact throw _

theorem operation {name : String} : (Pass.operation options line name operands).Silent s := by
  unfold Pass.operation
  cases Operation.ofName? name with
  | none => exact throw _
  | some operation =>
    cases operation with
    | space =>
      simp only
      split
      · split
        · exact emit
        · exact throw _
      · exact throw _
    | constants =>
      simp only
      split
      · exact throw _
      · exact ofExcept_bind fun _ => emit
    | transfer code =>
      simp only
      split
      · exact (address _).bind fun _ _ => (address _).bind fun _ _ => forM fun _ _ => emit
      · exact throw _
    | save =>
      simp only
      split
      · exact forM fun _ _ => emit
      · exact throw _
    | restore =>
      simp only
      split
      · exact forM fun _ _ => emit
      · exact throw _
    | machine m => exact instruction.bind fun _ _ => emit

theorem throw_bind {e : SourceError} : (MonadExcept.throw e >>= f).Silent s := throw e

theorem start {label : Option String} : (Pass.start line label operands).Silent s := by
  have hopen {entryLabel : Option String} {name : String} : (do
      let origin ← Pass.here
      modify fun s => { s with
        opened := some { name, startLine := line, origin, entryLabel }, started := true } :
      Pass PUnit).Silent s := here.bind fun _ _ => update rfl
  unfold Pass.start
  refine get_bind ?_
  cases s.opened with
  | some b => exact throw_bind
  | none =>
    cases label with
    | none => exact throw _
    | some name =>
      simp only
      split
      · exact hopen
      · split
        · exact hopen
        · exact throw_bind
      · exact throw_bind

theorem placeLiterals (literals : List (List Word)) : (Pass.placeLiterals literals).Silent s := by
  induction literals generalizing s with
  | nil => exact pure _
  | cons words rest ih => exact reserve.bind fun _ _ => ih.bind fun _ _ => pure _

theorem finish {label : Option String} : (Pass.finish label operands).Silent s := by
  unfold Pass.finish
  refine get_bind ?_
  cases s.opened with
  | none => exact throw _
  | some b =>
    refine (update rfl).bind fun _ _ => ?_
    simp only
    split
    · exact throw_bind
    · split
      · refine (placeLiterals _).bind fun _ _ => get_bind ?_
        split
        · exact ofExcept_bind fun _ => set rfl
        · split
          · exact ofExcept_bind fun _ => set rfl
          · exact throw_bind
      · exact throw_bind

/-- Looking at a label reports nothing. -/
theorem of_labelled {y : Pass Unit} {label : Option String} (hy : y.Silent s) : (match label with
    | some label =>
      if isLabel label.toList = true then y
      else (MonadExcept.throw (SourceError.invalidLabel label) : Pass PUnit) >>= fun _ => y
    | _ => y).Silent s := by
  split
  · split
    · exact hy
    · exact throw_bind
  · exact hy

theorem statement {st : Statement} : (Pass.statement options line st).Silent s := by
  obtain ⟨label, opcode, operands⟩ := st
  unfold Pass.statement
  split
  · exact of_labelled start
  · exact of_labelled finish
  · refine of_labelled (get_bind ?_)
    cases s.opened with
    | none => exact throw _
    | some b =>
      cases label with
      | none => exact operation
      | some name => exact defineLabel.bind fun _ _ => operation

theorem sourceLine {text : List Char} : (Pass.sourceLine options line text).Silent s := by
  refine ofExcept_bind fun found => ?_
  cases found with
  | none => exact pure _
  | some st => exact statement

end Silent

end Pass

end Comet.Assembly
