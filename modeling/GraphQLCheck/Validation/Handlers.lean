import GraphQLCheck.Traversal.Node

/-!
Sets of callbacks. A rule names the callbacks it wants; each has a bit of its own, that for
entering a class of nodes just below that for leaving it. `Handlers.has_ofSlots` says that the
set made of a list of callbacks has exactly these.
-/
namespace GraphQLCheck

structure Slot where
  phase : Phase
  node : NodeClass
deriving DecidableEq

namespace Slot

def position : NodeClass → Nat
  | .document => 0
  | .operation => 1
  | .fragment => 2
  | .variableDefinition => 3
  | .selectionSet => 4
  | .fragmentSpread => 5
  | .inlineFragment => 6
  | .field => 7
  | .directive => 8
  | .argument => 9
  | .value => 10
  | .objectField => 11

def index (s : Slot) : Nat :=
  match s.phase with
  | .enter => 2 * position s.node
  | .leave => 2 * position s.node + 1

theorem index_inj {s t : Slot} (h : s.index = t.index) : s = t := by
  obtain ⟨p, c⟩ := s
  obtain ⟨q, d⟩ := t
  revert h
  cases p <;> cases q <;> cases c <;> cases d <;> decide

theorem index_lt (s : Slot) : s.index < 24 := by
  obtain ⟨p, c⟩ := s
  cases p <;> cases c <;> decide

end Slot

structure Handlers where
  bits : Nat
deriving DecidableEq

namespace Handlers

def none : Handlers := ⟨0⟩

def all : Handlers := ⟨0xFFFFFF⟩

def one (s : Slot) : Handlers := ⟨1 <<< s.index⟩

def union (a b : Handlers) : Handlers := ⟨a.bits ||| b.bits⟩

def contains (a b : Handlers) : Bool := a.bits &&& b.bits == b.bits

def isEmpty (a : Handlers) : Bool := a.bits == 0

def has (a : Handlers) (s : Slot) : Bool := a.contains (one s)

def ofSlots (slots : List Slot) : Handlers := slots.foldl (fun h s => h.union (one s)) none

def entering (classes : List NodeClass) : Handlers := ofSlots (classes.map (⟨.enter, ·⟩))

def leaving (classes : List NodeClass) : Handlers := ofSlots (classes.map (⟨.leave, ·⟩))

theorem has_eq_testBit (a : Handlers) (s : Slot) : a.has s = a.bits.testBit s.index := by
  simp only [has, contains, one, Nat.one_shiftLeft]
  cases h : a.bits.testBit s.index
  · have : a.bits &&& 2 ^ s.index ≠ 2 ^ s.index := by
      intro he
      have := congrArg (Nat.testBit · s.index) he
      simp [Nat.testBit_and, h] at this
    simpa using this
  · have : a.bits &&& 2 ^ s.index = 2 ^ s.index := by
      apply Nat.eq_of_testBit_eq
      intro i
      by_cases hi : s.index = i
      · simp [Nat.testBit_and, hi ▸ h, hi]
      · simp [Nat.testBit_and, hi]
    simp [this]

theorem has_union (a b : Handlers) (s : Slot) : (a.union b).has s = (a.has s || b.has s) := by
  simp [has_eq_testBit, union, Nat.testBit_or]

theorem has_none (s : Slot) : none.has s = false := by
  simp [has_eq_testBit, none]

theorem has_all (s : Slot) : all.has s := by
  obtain ⟨p, c⟩ := s
  cases p <;> cases c <;> decide

theorem has_one (s t : Slot) : (one s).has t = decide (s = t) := by
  rw [has_eq_testBit, one, Nat.one_shiftLeft, Nat.testBit_two_pow]
  exact decide_eq_decide.2 ⟨Slot.index_inj, congrArg Slot.index⟩

theorem has_ofSlots (slots : List Slot) (t : Slot) : (ofSlots slots).has t = slots.contains t := by
  suffices h : ∀ a : Handlers, (slots.foldl (fun h s => h.union (one s)) a).has t =
      (a.has t || slots.contains t) by
    simpa [has_none, ofSlots] using h none
  induction slots with
  | nil => simp
  | cons s ss ih =>
    intro a
    rw [List.foldl_cons, ih, has_union, has_one]
    by_cases hs : s = t
    · simp [hs]
    · simp [hs, Ne.symm hs]

end Handlers
end GraphQLCheck
