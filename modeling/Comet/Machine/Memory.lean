import Comet.Word

/-! Memory: one word for each address. It is kept as a balanced tree with as many levels as an
address has bits, so that reading, writing and keeping an older memory are all cheap. -/
namespace Comet

/-- A full binary tree with `2 ^ depth` leaves. -/
inductive WordTree : Nat → Type
  | leaf (w : Word) : WordTree 0
  | node {depth : Nat} (low high : WordTree depth) : WordTree (depth + 1)
  deriving DecidableEq

namespace WordTree

/-- The number of leaves of a tree. -/
def span (depth : Nat) : Nat := 1 <<< depth

theorem span_pos (depth : Nat) : 0 < span depth := by
  rw [span, Nat.one_shiftLeft]
  exact Nat.two_pow_pos depth

def fill (w : Word) : (depth : Nat) → WordTree depth
  | 0 => leaf w
  | depth + 1 =>
    let half := fill w depth
    node half half

/-- The words of the list in the first leaves, and zero in the others. -/
def ofList : (depth : Nat) → List Word → WordTree depth
  | 0, [] => leaf 0
  | 0, w :: _ => leaf w
  | depth + 1, [] => fill 0 (depth + 1)
  | depth + 1, w :: ws =>
    node (ofList depth ((w :: ws).take (span depth))) (ofList depth ((w :: ws).drop (span depth)))

/-- The word at an index; each level looks at one bit of the index. -/
def get {depth : Nat} (t : WordTree depth) (i : Nat) : Word :=
  match depth, t with
  | 0, leaf w => w
  | depth + 1, node low high => if i.testBit depth then high.get i else low.get i

def set {depth : Nat} (t : WordTree depth) (i : Nat) (w : Word) : WordTree depth :=
  match depth, t with
  | 0, leaf _ => leaf w
  | depth + 1, node low high =>
    if i.testBit depth then node low (high.set i w) else node (low.set i w) high

def toList {depth : Nat} (t : WordTree depth) : List Word :=
  match depth, t with
  | 0, leaf w => [w]
  | _ + 1, node low high => low.toList ++ high.toList

theorem mod_span_succ (i depth : Nat) :
    i % span (depth + 1) = i % span depth + if i.testBit depth then span depth else 0 := by
  simp only [span, Nat.one_shiftLeft]
  rw [Nat.mod_pow_succ, Nat.testBit_eq_decide_div_mod_eq]
  rcases Nat.mod_two_eq_zero_or_one (i / 2 ^ depth) with h | h <;> simp [h]

theorem get_set {depth : Nat} (t : WordTree depth) (i j : Nat) (w : Word) :
    (t.set i w).get j = if j % span depth = i % span depth then w else t.get j := by
  induction t with
  | leaf v => simp [set, get, span, Nat.mod_one]
  | @node depth low high ihl ihh =>
    have hi := Nat.mod_lt i (span_pos depth)
    have hj := Nat.mod_lt j (span_pos depth)
    simp only [set, mod_span_succ]
    cases i.testBit depth <;> cases h' : j.testBit depth <;>
      simp only [h', get, ihl, ihh, Bool.false_eq_true, if_true, if_false] <;> grind

theorem get_fill (w : Word) (depth i : Nat) : (fill w depth).get i = w := by
  induction depth with
  | zero => rfl
  | succ depth ih => simp only [fill, get, ih, ite_self]

theorem get_ofList (depth : Nat) (ws : List Word) (i : Nat) :
    (ofList depth ws).get i = ws.getD (i % span depth) 0 := by
  induction depth generalizing ws with
  | zero => cases ws <;> simp [ofList, get, span, Nat.mod_one]
  | succ depth ih =>
    have hi := Nat.mod_lt i (span_pos depth)
    cases ws with
    | nil => simp [ofList, get_fill]
    | cons w ws =>
      simp only [ofList, get, mod_span_succ]
      cases i.testBit depth <;> simp [ih, List.getD_eq_getElem?_getD, hi, Nat.add_comm]

/-- The leaves of a tree with sixteen levels are the addresses. -/
theorem mod_span (a : Word) : a.toNat % span 16 = a.toNat := Nat.mod_eq_of_lt a.toNat_lt

end WordTree

structure Memory where
  cells : WordTree 16
  deriving DecidableEq

namespace Memory

def zero : Memory := ⟨.fill 0 16⟩

/-- The words from address zero on, and zero behind them. -/
def load (ws : List Word) : Memory := ⟨.ofList 16 ws⟩

def read (m : Memory) (address : Word) : Word := m.cells.get address.toNat

def write (m : Memory) (address w : Word) : Memory := ⟨m.cells.set address.toNat w⟩

/-- Writes the words from an address on, going on at zero after the last address. -/
def writeAll (m : Memory) (address : Word) : List Word → Memory
  | [] => m
  | w :: ws => (m.write address w).writeAll (address + 1) ws

/-- Reads `count` words from an address on, going on at zero after the last address. -/
def readAll (m : Memory) (address : Word) (count : Nat) : List Word :=
  (List.range count).map fun i => m.read (address + .ofNat i)

/-- All words, in the order of their addresses. -/
def toList (m : Memory) : List Word := m.cells.toList

theorem read_write (m : Memory) (address a w : Word) :
    (m.write address w).read a = if a = address then w else m.read a := by
  unfold read write
  rw [WordTree.get_set, WordTree.mod_span a, WordTree.mod_span address]
  simp [UInt16.toNat_inj]

@[simp] theorem read_zero (a : Word) : zero.read a = 0 := WordTree.get_fill 0 16 _

theorem read_load (ws : List Word) (a : Word) : (load ws).read a = ws.getD a.toNat 0 := by
  unfold read load
  rw [WordTree.get_ofList, WordTree.mod_span a]

end Memory

end Comet
