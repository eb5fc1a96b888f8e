import Comet.Proofs.Machine.StraightLine

namespace Comet

/-- Puts the registers on the stack, one after the other. -/
def saveCode (rs : List (Fin 8)) : List Instruction :=
  rs.map fun r => ⟨.push, 0, r.castLE (by decide), some 0⟩

/-- Takes the registers from the stack, one after the other. -/
def restoreCode (rs : List (Fin 8)) : List Instruction :=
  rs.map fun r => ⟨.pop, r.castLE (by decide), 0, none⟩

/-- As many words as are put on a stack that is at `sp`, the first one first. -/
def stackAddresses (sp : Word) (count : Nat) : List Word :=
  (List.range count).map fun k => sp - .ofNat (k + 1)

theorem codeLength_saveCode (rs : List (Fin 8)) : codeLength (saveCode rs) = 2 * rs.length := by
  induction rs with
  | nil => rfl
  | cons r rs ih =>
    have hsize : codeLength (saveCode (r :: rs)) = 2 + codeLength (saveCode rs) := rfl
    rw [hsize, ih, List.length_cons]
    omega

theorem Word.sub_ofNat_succ (sp : Word) (k : Nat) :
    sp - .ofNat (k + 1) = sp - 1 - .ofNat k := by
  grind [UInt16.ofNat_add]

/-- Words that are less than the whole memory apart are different. -/
theorem Word.sub_ofNat_inj {a : Word} {i j : Nat} (hi : i < memorySize) (hj : j < memorySize)
    (h : a - .ofNat i = a - .ofNat j) : i = j := by
  have hsame : a - .ofNat i - .ofNat j + .ofNat j = a - .ofNat i - .ofNat j + .ofNat i := by
    grind
  grind [Word.add_ofNat_inj hj hi hsame]

namespace Memory

variable {memory : Memory} {sp a : Word} {ws : List Word}

/-- Puts the words on a stack that is at `sp`, one after the other. -/
def pushAll (memory : Memory) (sp : Word) : List Word → Memory
  | [] => memory
  | w :: ws => (memory.write (sp - 1) w).pushAll (sp - 1) ws

theorem stackAddresses_succ (sp : Word) (count : Nat) :
    stackAddresses sp (count + 1) = (sp - 1) :: stackAddresses (sp - 1) count := by
  simp only [stackAddresses, List.range_succ_eq_map, List.map_cons, List.map_map]
  congr 1
  apply List.map_congr_left
  intro k _
  exact Word.sub_ofNat_succ sp (k + 1)

theorem read_pushAll_of_notMem (h : a ∉ stackAddresses sp ws.length) :
    (memory.pushAll sp ws).read a = memory.read a := by
  induction ws generalizing memory sp with
  | nil => rfl
  | cons w ws ih =>
    rw [List.length_cons, stackAddresses_succ, List.mem_cons, not_or] at h
    rw [pushAll, ih h.2, read_write, if_neg h.1]

theorem read_pushAll (memory : Memory) (sp : Word) {ws : List Word} {k : Nat} (hk : k < ws.length)
    (hroom : ws.length < memorySize) :
    (memory.pushAll sp ws).read (sp - .ofNat (k + 1)) = ws[k] := by
  induction ws generalizing memory sp k with
  | nil => cases hk
  | cons w ws ih =>
    rw [List.length_cons] at hk hroom
    cases k with
    | zero =>
      have hbelow : sp - 1 ∉ stackAddresses (sp - 1) ws.length := by
        rintro hmem
        obtain ⟨j, hj, hsame⟩ := List.mem_map.mp hmem
        have hj := List.mem_range.mp hj
        have hzero : sp - 1 - .ofNat (j + 1) = sp - 1 - .ofNat 0 := by simpa using hsame
        have := Word.sub_ofNat_inj (by omega) (by decide) hzero
        omega
      have htop : sp - .ofNat (0 + 1) = sp - 1 := rfl
      rw [pushAll, htop, read_pushAll_of_notMem hbelow, read_write, if_pos rfl]
      rfl
    | succ k =>
      rw [pushAll, Word.sub_ofNat_succ, ih _ _ (by omega) (by omega)]
      rfl

/-- The registers after words have been taken from a stack that is at `sp`, one for each of `rs`. -/
def popAll (memory : Memory) (sp : Word) (gr : Vector Word 8) : List (Fin 8) → Vector Word 8
  | [] => gr
  | r :: rs => memory.popAll (sp + 1) (gr.set r.val (memory.read sp)) rs

theorem popAll_append (memory : Memory) (sp : Word) (gr : Vector Word 8) (xs ys : List (Fin 8)) :
    memory.popAll sp gr (xs ++ ys) =
      memory.popAll (sp + .ofNat xs.length) (memory.popAll sp gr xs) ys := by
  induction xs generalizing sp gr with
  | nil => simp [popAll]
  | cons x xs ih =>
    have hnext : sp + .ofNat (xs.length + 1) = sp + 1 + .ofNat xs.length := by
      grind [UInt16.ofNat_add]
    rw [List.cons_append, popAll, ih, List.length_cons, hnext]
    rfl

/-- What has been put on the stack register by register is taken from it in the opposite order. -/
theorem get_popAll_reverse {saved : Vector Word 8} (gr : Vector Word 8) {rs : List (Fin 8)}
    (h : ∀ k (hk : k < rs.length), memory.read (sp - .ofNat (k + 1)) = saved.get rs[k])
    (r : Fin 8) :
    (r ∈ rs → (memory.popAll (sp - .ofNat rs.length) gr rs.reverse).get r = saved.get r) ∧
      (r ∉ rs → (memory.popAll (sp - .ofNat rs.length) gr rs.reverse).get r = gr.get r) := by
  induction rs generalizing sp with
  | nil => simp [popAll]
  | cons first rs ih =>
    have hrest : ∀ k (hk : k < rs.length), memory.read (sp - 1 - .ofNat (k + 1)) =
        saved.get rs[k] := by
      intro k hk
      rw [← Word.sub_ofNat_succ]
      exact h (k + 1) (Nat.succ_lt_succ hk)
    have htop : memory.read (sp - 1) = saved.get first := h 0 (Nat.succ_pos _)
    have hsp : sp - 1 - .ofNat rs.length + .ofNat rs.reverse.length = sp - 1 := by
      rw [List.length_reverse, UInt16.sub_add_cancel]
    have hpopped : memory.popAll (sp - .ofNat (first :: rs).length) gr (first :: rs).reverse =
        (memory.popAll (sp - 1 - .ofNat rs.length) gr rs.reverse).set first.val
          (saved.get first) := by
      rw [List.reverse_cons, List.length_cons, Word.sub_ofNat_succ, popAll_append, hsp]
      rw [popAll, popAll, htop]
    rw [hpopped]
    obtain ⟨hin, hout⟩ := ih hrest
    generalize memory.popAll (sp - 1 - .ofNat rs.length) gr rs.reverse = behind at hin hout ⊢
    by_cases hfirst : first.val = r.val
    · obtain rfl := Fin.ext hfirst
      have hset : (behind.set first.val (saved.get first)).get first = saved.get first :=
        Vector.getElem_set_self first.isLt
      exact ⟨fun _ => hset, fun hnot => absurd List.mem_cons_self hnot⟩
    · have hset : (behind.set first.val (saved.get first)).get r = behind.get r :=
        Vector.getElem_set_ne first.isLt r.isLt hfirst
      refine ⟨fun hmem => hset.trans (hin ?_), fun hnot => hset.trans (hout ?_)⟩
      · exact (List.mem_cons.mp hmem).resolve_left fun hsame => hfirst (congrArg Fin.val hsame.symm)
      · exact fun hmem => hnot (List.mem_cons_of_mem _ hmem)

end Memory

namespace Machine

section straight

variable {σ : Type} (io : Console σ) {code : Word → Prop} {m : Machine} (s : σ) {rs : List (Fin 8)}

/-- The registers that instructions name one after the other. -/
def registers (m : Machine) (rs : List (Fin 8)) : List Word := rs.map fun r => m.gr[r.val]

theorem straight_save (hm : m.halted = false) (hrs : 0 ∉ rs)
    (hcode : ∀ w ∈ stackAddresses m.sp rs.length, ¬ code w) :
    Straight io code m s (saveCode rs)
      { m with
        memory := m.memory.pushAll m.sp (m.registers rs)
        sp := m.sp - .ofNat rs.length
        pr := m.pr + .ofNat (2 * rs.length) } s := by
  induction rs generalizing m with
  | nil =>
    have hsame : ({ m with
        memory := m.memory.pushAll m.sp (m.registers [])
        sp := m.sp - .ofNat 0
        pr := m.pr + .ofNat (2 * 0) } : Machine) = m := by
      simp [registers, Memory.pushAll]
    rw [List.length_nil, hsame]
    exact .nil m s
  | cons r rs ih =>
    rw [List.mem_cons, not_or] at hrs
    rw [List.length_cons, Memory.stackAddresses_succ, List.forall_mem_cons] at hcode
    let m₁ : Machine := { m.push m.gr[r.val] with pr := m.pr + 2 }
    have hfirst : Straight io code m s (saveCode [r]) m₁ s := by
      refine Straight.push (r := r.castLE (by decide)) hm r.isLt ?_ hcode.1
      exact fun hzero => hrs.1 (Fin.ext (congrArg Fin.val hzero).symm)
    have hrest := ih (m := m₁) hm hrs.2 hcode.2
    have hpr : m.pr + 2 + .ofNat (2 * rs.length) = m.pr + .ofNat (2 * (rs.length + 1)) := by
      grind [UInt16.ofNat_add]
    have hall := hfirst.append hrest
    simp only [m₁, push, write, hpr, ← Word.sub_ofNat_succ] at hall
    exact hall

theorem straight_restore (hm : m.halted = false) :
    Straight io code m s (restoreCode rs)
      { m with
        gr := m.memory.popAll m.sp m.gr rs
        sp := m.sp + .ofNat rs.length
        pr := m.pr + .ofNat rs.length } s := by
  induction rs generalizing m with
  | nil =>
    have hsame : ({ m with
        gr := m.memory.popAll m.sp m.gr []
        sp := m.sp + .ofNat 0
        pr := m.pr + .ofNat 0 } : Machine) = m := by
      simp [Memory.popAll]
    rw [List.length_nil, hsame]
    exact .nil m s
  | cons r rs ih =>
    let m₁ : Machine :=
      { m with gr := m.gr.set r.val (m.read m.sp), sp := m.sp + 1, pr := m.pr + 1 }
    have hfirst : Straight io code m s (restoreCode [r]) m₁ s :=
      Straight.pop (r := r.castLE (by decide)) hm r.isLt
    have hrest := ih (m := m₁) hm
    have hnext (w : Word) : w + 1 + .ofNat rs.length = w + .ofNat (rs.length + 1) := by
      grind [UInt16.ofNat_add]
    have hall := hfirst.append hrest
    simp only [m₁, hnext] at hall
    exact hall

end straight

/-- The registers that a subroutine keeps for its caller. -/
def keptRegisters : List (Fin 8) := (List.finRange 8).tail

/-- What `RPUSH` does to the machine. -/
structure RegistersSaved (m m' : Machine) : Prop where
  others : m' = { m with pr := m.pr + 14, sp := m.sp - 7, memory := m'.memory }
  frame : ∀ a ∉ stackAddresses m.sp 7, m'.read a = m.read a
  saved : ∀ r : Fin 8, r ≠ 0 → m'.read (m.sp - .ofNat r.val) = m.gr[r.val]

/-- What `RPOP` does to the machine `m`, if the registers are those of the machine `before`. -/
structure RegistersRestored (before m m' : Machine) : Prop where
  others : m' = { m with pr := m.pr + 7, sp := before.sp, gr := m'.gr }
  spared : m'.gr[0] = m.gr[0]
  restored : ∀ r : Fin 8, r ≠ 0 → m'.gr[r.val] = before.gr[r.val]

section kept

variable {σ : Type} (io : Console σ) {m before : Machine} (s : σ)

theorem mem_keptRegisters (r : Fin 8) : r ∈ keptRegisters ↔ r ≠ 0 := by
  revert r
  decide

theorem getElem_keptRegisters : ∀ k (hk : k < keptRegisters.length),
    keptRegisters[k] ≠ 0 ∧ k + 1 = keptRegisters[k].val := by
  decide

theorem registers_saved (hm : m.halted = false)
    (hcode : m.memory.HasCode m.pr (saveCode keptRegisters))
    (hapart : ∀ w ∈ stackAddresses m.sp 7, ∀ k < 14, w ≠ m.pr + .ofNat k) :
    ∃ m', m.stepsOn io s 7 = some (m', s) ∧ m.RegistersSaved m' := by
  have hfree : ∀ w ∈ stackAddresses m.sp keptRegisters.length,
      ¬ ∃ k < 14, w = m.pr + .ofNat k := by
    rintro w hw ⟨k, hk, hsame⟩
    exact hapart w hw k hk hsame
  have hstraight := straight_save io s hm (by decide) hfree
  have hsteps := hstraight.stepsOn hcode fun k hk => ⟨k, by rwa [codeLength_saveCode] at hk, rfl⟩
  refine ⟨_, hsteps, rfl, ?_, ?_⟩
  · intro a ha
    exact Memory.read_pushAll_of_notMem ha
  · intro r hr
    obtain ⟨k, hk, rfl⟩ := List.getElem_of_mem ((mem_keptRegisters r).mpr hr)
    have hlength : (m.registers keptRegisters).length = keptRegisters.length := List.length_map _
    have hroom : (m.registers keptRegisters).length < memorySize := by
      rw [hlength]
      decide
    have hword := m.memory.read_pushAll m.sp (hlength ▸ hk) hroom
    rw [(getElem_keptRegisters k hk).2] at hword
    exact hword.trans (List.getElem_map _)

theorem registers_restored (hm : m.halted = false)
    (hcode : m.memory.HasCode m.pr (restoreCode keptRegisters.reverse))
    (hsp : m.sp = before.sp - 7)
    (hsaved : ∀ r : Fin 8, r ≠ 0 → m.read (before.sp - .ofNat r.val) = before.gr[r.val]) :
    ∃ m', m.stepsOn io s 7 = some (m', s) ∧ before.RegistersRestored m m' := by
  have hstraight : Straight io (fun _ => True) m s (restoreCode keptRegisters.reverse) _ s :=
    straight_restore io s hm
  have hsteps := hstraight.stepsOn hcode fun _ _ => trivial
  have hwords : ∀ k (hk : k < keptRegisters.length),
      m.memory.read (before.sp - .ofNat (k + 1)) = before.gr[keptRegisters[k].val] := by
    intro k hk
    obtain ⟨hne, hval⟩ := getElem_keptRegisters k hk
    rw [hval]
    exact hsaved _ hne
  have hregister := Memory.get_popAll_reverse m.gr hwords
  have hback : m.sp + 7 = before.sp := by rw [hsp, UInt16.sub_add_cancel]
  refine ⟨_, hsteps, ?_, ?_, ?_⟩
  · rw [← hback]
    rfl
  · rw [hsp]
    exact (hregister 0).2 fun hmem => (mem_keptRegisters 0).mp hmem rfl
  · intro r hr
    rw [hsp]
    exact (hregister r).1 ((mem_keptRegisters r).mpr hr)

end kept

end Machine

end Comet
