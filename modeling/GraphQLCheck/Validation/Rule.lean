import GraphQLCheck.Traversal.Visit
import GraphQLCheck.Typing.Frame
import GraphQLCheck.Validation.Diagnostic
import GraphQLCheck.Validation.Handlers

/-!
Rules. A rule is a state and a reaction to every callback it asked for: it sees the schema, the
document, what was reported before the callback, the node with its path and its frame, and answers
with a new state, with what it reports, and with whether the nodes below are to be passed over. A
rule may also fail; the answer then counts for nothing.
-/
namespace GraphQLCheck

structure Subject where
  schema : Schema
  document : Document

structure RuleContext extends Subject where
  collected : List Diagnostic

/-- A subject stands for the context in which nothing was reported yet. -/
instance : Coe Subject RuleContext := ⟨fun subject => ⟨subject, []⟩⟩

/-- One callback at a node; `depth` counts the nodes from the document down to it. -/
structure Visit where
  phase : Phase
  node : Node
  path : Path
  frame : Frame
  depth : Nat

def Visit.slot (v : Visit) : Slot := ⟨v.phase, v.node.classOf⟩

structure Reaction (σ : Type) where
  state : σ
  reports : List Diagnostic
  flow : Flow
  failure : Option String

namespace Reaction
variable {σ : Type}

def next (state : σ) (reports : List Diagnostic) : Reaction σ := ⟨state, reports, .next, none⟩

def fail (state : σ) (message : String) : Reaction σ := ⟨state, [], .next, some message⟩

end Reaction

structure Rule where
  State : Type
  start : State
  handlers : Handlers
  react : RuleContext → Visit → State → Reaction State

namespace Rule

def Blind (r : Rule) : Prop :=
  ∀ (c : RuleContext) visit state, r.react c visit state = r.react c.toSubject visit state

def stateless (handlers : Handlers) (reports : Subject → Visit → List Diagnostic) : Rule where
  State := Unit
  start := ()
  handlers := handlers
  react c visit _ := .next () (reports c.toSubject visit)

theorem blind_stateless (handlers : Handlers) (reports : Subject → Visit → List Diagnostic) :
    (stateless handlers reports).Blind := fun _ _ _ => rfl

end Rule
end GraphQLCheck
