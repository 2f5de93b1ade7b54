import GraphQLCheck.Proofs.Validation.NodeReports
import GraphQLCheck.Validation.Rules.Directives
import GraphQLCheck.Validation.Rules.Values

/-!
Names that have to differ, scope by scope. A scope is a node with its own arguments, variable
definitions, object fields or directives, which are its parts (`Node.parts`); what is written
further down belongs to other scopes. Names of arguments and variables are reported once with all
their places (`sharedNames`), object fields and directives each time they come again, with their
first place (`secondUses`). `repeats_exact` says that the four rules report this for each node of a
document, whatever is around it, and nothing else.
-/
namespace GraphQLCheck

namespace Node

def parts {α : Type} (pick : Node → Option α) (n : Node) : List α :=
  n.children.filterMap fun c => pick c.node

def argument? : Node → Option Argument
  | .argument a => some a
  | _ => none

def variableDefinition? : Node → Option VariableDefinition
  | .variableDefinition d => some d
  | _ => none

def directive? : Node → Option Directive
  | .directive d => some d
  | _ => none

def objectField? : Node → Option ObjectField
  | .objectField f => some f
  | _ => none

theorem filterMap_items {α β : Type} (pick : Node → Option β) (part : List Segment)
    (node : α → Node) (i : Nat) (as : List α) :
    ((Child.items part node i as).filterMap fun c => pick c.node) =
      as.filterMap fun a => pick (node a) := by
  induction as generalizing i with
  | nil => rfl
  | cons a as ih => simp only [Child.items, List.filterMap_cons, ih]

theorem parts_definition (x : Definition) :
    argument? x.node = none ∧ variableDefinition? x.node = none ∧ directive? x.node = none ∧
      objectField? x.node = none := by
  cases x <;> exact ⟨rfl, rfl, rfl, rfl⟩

theorem parts_selection (x : Selection) :
    argument? x.node = none ∧ variableDefinition? x.node = none ∧ directive? x.node = none ∧
      objectField? x.node = none := by
  cases x <;> exact ⟨rfl, rfl, rfl, rfl⟩

theorem parts_eq (n : Node) :
    n.parts argument? = (match n with
      | .field f => f.arguments
      | .directive d => d.arguments
      | _ => []) ∧
    n.parts variableDefinition? = (match n with
      | .operation o => o.variableDefinitions
      | _ => []) ∧
    n.parts directive? = (match n with
      | .operation o => o.directives
      | .variableDefinition d => d.directives
      | .field f => f.directives
      | .fragmentSpread s => s.directives
      | .inlineFragment i => i.directives
      | .fragment f => f.directives
      | _ => []) ∧
    n.parts objectField? = (match n with
      | .value (.object fields _) => fields
      | _ => []) := by
  cases n with
  | variableDefinition d =>
    simp only [parts, children, List.filterMap_append, filterMap_items]
    cases d.defaultValue <;> simp [argument?, variableDefinition?, directive?, objectField?]
  | value v =>
    cases v with
    | list _ _ | object _ _ =>
      simp only [parts, children, filterMap_items]
      simp [argument?, variableDefinition?, directive?, objectField?]
    | _ => exact ⟨rfl, rfl, rfl, rfl⟩
  | _ =>
    simp only [parts, children, List.filterMap_append, filterMap_items, parts_definition,
      parts_selection]
    simp [argument?, variableDefinition?, directive?, objectField?]

end Node

namespace Rules

/-! ### Names that are reported once -/

/-- The names that are there more than once, in the order in which they come first. -/
def repeated (names : List String) : List String :=
  names.eraseDups.filter fun n => 1 < names.count n

/-- One report for each name that is there more than once, at all its places in their order. -/
def sharedNames (problem : String → Problem) (items : List (String × Option Location)) :
    List Diagnostic :=
  (repeated (items.map Prod.fst)).map fun n =>
    .atLocations (problem n) ((items.filter (·.1 == n)).map Prod.snd)

theorem firsts_eq (seen names : List String) :
    firsts seen names = (names.filter fun n => !seen.contains n).eraseDups := by
  induction names generalizing seen with
  | nil => rfl
  | cons n rest ih =>
    rw [firsts, ih, ih]
    split
    · rename_i hseen
      rw [List.filter_cons_of_neg (by simpa using hseen)]
    · rename_i hseen
      have hrest : (rest.filter fun m => !(n :: seen).contains m) =
          (rest.filter fun m => !seen.contains m).filter fun m => !m == n := by
        rw [List.filter_filter]
        refine List.filter_congr fun m _ => ?_
        rw [List.contains_cons, Bool.not_or]
      rw [List.filter_cons_of_pos (by simpa using hseen), List.eraseDups_cons, hrest]

theorem nodup_firsts (seen names : List String) :
    (firsts seen names).Nodup ∧ ∀ n ∈ firsts seen names, n ∉ seen := by
  induction names generalizing seen with
  | nil => simp [firsts]
  | cons n rest ih =>
    rw [firsts]
    split
    · exact ih seen
    · rename_i hseen
      obtain ⟨hnodup, hfresh⟩ := ih (n :: seen)
      refine ⟨List.nodup_cons.2 ⟨fun hn => hfresh n hn List.mem_cons_self, hnodup⟩, ?_⟩
      refine List.forall_mem_cons.2 ⟨by simpa using hseen, fun m hm hseen => ?_⟩
      exact hfresh m hm (List.mem_cons_of_mem n hseen)

theorem firsts_nil (names : List String) : firsts [] names = names.eraseDups := by
  rw [firsts_eq]
  simp

theorem nodup_repeated (names : List String) : (repeated names).Nodup := by
  rw [repeated, ← firsts_nil]
  exact (nodup_firsts [] names).1.filter _

theorem mem_repeated {names : List String} {n : String} :
    n ∈ repeated names ↔ 2 ≤ names.count n := by
  rw [repeated, List.mem_filter, List.mem_eraseDups, decide_eq_true_eq]
  refine ⟨And.right, fun h => ⟨List.count_pos_iff.1 ?_, h⟩⟩
  omega

theorem repeatedNames_eq (problem : String → Problem) (items : List (String × Option Location)) :
    repeatedNames problem items = sharedNames problem items := by
  have hcount : ∀ n, (items.map Prod.fst).count n = (items.filter (·.1 == n)).length := by
    intro n
    rw [List.count, List.countP_map, List.countP_eq_length_filter]
    rfl
  rw [repeatedNames, sharedNames, repeated, firsts_nil]
  induction (items.map Prod.fst).eraseDups with
  | nil => rfl
  | cons n names ih =>
    rw [List.flatMap_cons, ih, List.filter_cons, hcount]
    by_cases h : 1 < (items.filter (·.1 == n)).length
    · simp [h]
    · simp [h]

/-! ### Repeats that are reported each -/

section
variable {α : Type} (nameOf : α → String)

/-- The items whose name stands in front of them, each with the first item of that name. -/
def secondUses (items : List α) : List (α × α) :=
  items.zipIdx.filterMap fun x =>
    ((items.take x.2).find? (nameOf · == nameOf x.1)).map (·, x.1)

def secondUsesBehind (front rest : List α) : List (α × α) :=
  (rest.zipIdx front.length).filterMap fun x =>
    (((front ++ rest).take x.2).find? (nameOf · == nameOf x.1)).map (·, x.1)

theorem secondUsesBehind_cons (front rest : List α) (a : α) :
    secondUsesBehind nameOf front (a :: rest) =
      ((front.find? (nameOf · == nameOf a)).map (·, a)).toList ++
        secondUsesBehind nameOf (front ++ [a]) rest := by
  have hfront : (front ++ a :: rest).take front.length = front := List.take_left
  rw [secondUsesBehind, List.zipIdx_cons, List.filterMap_cons, hfront, secondUsesBehind,
    List.append_assoc, List.singleton_append, List.length_append, List.length_singleton]
  cases front.find? (nameOf · == nameOf a) <;> rfl

variable {nameOf}

def Firsts (nameOf : α → String) (seen front : List α) : Prop :=
  ∀ name, seen.find? (nameOf · == name) = front.find? (nameOf · == name)

theorem Firsts.start (nameOf : α → String) : Firsts nameOf [] [] := fun _ => rfl

theorem Firsts.known {seen front : List α} {a first : α} (h : Firsts nameOf seen front)
    (ha : seen.find? (nameOf · == nameOf a) = some first) : Firsts nameOf seen (front ++ [a]) := by
  intro name
  rw [List.find?_append, ← h]
  by_cases hname : nameOf a = name
  · rw [← hname, ha]
    rfl
  · simp [hname]

theorem Firsts.new {seen front : List α} {a : α} (h : Firsts nameOf seen front)
    (ha : seen.find? (nameOf · == nameOf a) = none) :
    Firsts nameOf (a :: seen) (front ++ [a]) := by
  intro name
  rw [List.find?_append, ← h]
  by_cases hname : nameOf a = name
  · rw [← hname, ha]
    simp
  · simp [hname]

end

theorem repeatedFields_eq {seen front : List ObjectField} (h : Firsts ObjectField.name seen front)
    (fields : List ObjectField) :
    repeatedFields seen fields = (secondUsesBehind ObjectField.name front fields).map fun x =>
      .atLocations (.repeatedInputField x.2.name) [x.1.loc, x.2.loc] := by
  induction fields generalizing seen front with
  | nil => rfl
  | cons f fields ih =>
    rw [secondUsesBehind_cons, ← h, repeatedFields]
    cases hseen : seen.find? (·.name == f.name) with
    | some first => simp [ih (h.known hseen)]
    | none => simp [ih (h.new hseen)]

def givenOnce (s : Schema) (d : Directive) : Bool :=
  match s.directive? d.name with
  | some definition => !definition.repeatable
  | none => false

theorem repeatedDirectives_eq {s : Schema} {seen front : List Directive}
    (h : Firsts Directive.name seen front) (ds : List Directive) :
    repeatedDirectives s seen ds =
      (secondUsesBehind Directive.name front (ds.filter (givenOnce s))).map fun x =>
        .atLocations (.repeatedDirective x.2.name) [x.1.loc, x.2.loc] := by
  induction ds generalizing seen front with
  | nil => rfl
  | cons d ds ih =>
    have honce : (s.directive? d.name).any (!·.repeatable) = givenOnce s d := by
      rw [givenOnce]
      cases s.directive? d.name <;> rfl
    rw [repeatedDirectives, honce]
    cases hd : givenOnce s d with
    | false => simp [hd, ih h]
    | true =>
      rw [if_pos rfl, List.filter_cons_of_pos hd, secondUsesBehind_cons, ← h]
      cases hseen : seen.find? (·.name == d.name) with
      | some first => simp [ih (h.known hseen)]
      | none => simp [ih (h.new hseen)]

/-! ### The rules -/

variable (s : Schema) (d : Document)

theorem readsNode_uniqueArgumentNames :
    Rule.ReadsNode [.field, .directive]
      (fun subject visit => (uniqueArgumentNames.react subject visit ()).reports) ⟨s, d⟩
      fun n => sharedNames .repeatedArgument
        ((n.parts Node.argument?).map fun a => (a.name, a.loc)) where
  reports n path frame depth := by
    rw [n.parts_eq.1, ← repeatedNames_eq]
    cases n <;> rfl
  called {n} hclass := by
    rw [n.parts_eq.1]
    cases n with
    | field f => exact absurd List.mem_cons_self hclass
    | directive d => exact absurd (List.mem_cons_of_mem _ List.mem_cons_self) hclass
    | _ => rfl
  pathless hr := by
    obtain ⟨name, -, rfl⟩ := List.mem_map.1 hr
    rfl

theorem readsNode_uniqueVariableNames :
    Rule.ReadsNode [.operation]
      (fun subject visit => (uniqueVariableNames.react subject visit ()).reports) ⟨s, d⟩
      fun n => sharedNames .repeatedVariable
        ((n.parts Node.variableDefinition?).map fun v => (v.var.name, v.var.loc)) where
  reports n path frame depth := by
    rw [n.parts_eq.2.1, ← repeatedNames_eq]
    cases n <;> rfl
  called {n} hclass := by
    rw [n.parts_eq.2.1]
    cases n with
    | operation o => exact absurd List.mem_cons_self hclass
    | _ => rfl
  pathless hr := by
    obtain ⟨name, -, rfl⟩ := List.mem_map.1 hr
    rfl

theorem readsNode_uniqueInputFieldNames :
    Rule.ReadsNode [.value]
      (fun subject visit => (uniqueInputFieldNames.react subject visit ()).reports) ⟨s, d⟩
      fun n => (secondUses ObjectField.name (n.parts Node.objectField?)).map fun x =>
        .atLocations (.repeatedInputField x.2.name) [x.1.loc, x.2.loc] where
  reports n path frame depth := by
    rw [n.parts_eq.2.2.2]
    cases n with
    | value v =>
      cases v with
      | object fields loc => exact repeatedFields_eq (.start _) fields
      | _ => rfl
    | _ => rfl
  called {n} hclass := by
    rw [n.parts_eq.2.2.2]
    cases n with
    | value v => exact absurd List.mem_cons_self hclass
    | _ => rfl
  pathless hr := by
    obtain ⟨x, -, rfl⟩ := List.mem_map.1 hr
    rfl

theorem readsNode_uniqueDirectivesPerLocation :
    Rule.ReadsNode
      [.operation, .variableDefinition, .field, .fragmentSpread, .inlineFragment, .fragment]
      (fun subject visit => (uniqueDirectivesPerLocation.react subject visit ()).reports) ⟨s, d⟩
      fun n =>
        (secondUses Directive.name ((n.parts Node.directive?).filter (givenOnce s))).map fun x =>
          .atLocations (.repeatedDirective x.2.name) [x.1.loc, x.2.loc] where
  reports n path frame depth := by
    rw [n.parts_eq.2.2.1]
    cases n with
    | operation _ | variableDefinition _ | field _ | fragmentSpread _ | inlineFragment _
    | fragment _ => exact repeatedDirectives_eq (.start _) _
    | _ => rfl
  called {n} hclass := by
    rw [n.parts_eq.2.2.1]
    cases n with
    | operation _ | variableDefinition _ | field _ | fragmentSpread _ | inlineFragment _
    | fragment _ => simp [Node.classOf] at hclass
    | _ => rfl
  pathless hr := by
    obtain ⟨x, -, rfl⟩ := List.mem_map.1 hr
    rfl

/-- Each of the four rules reports, for every node in turn, what repeats among its own parts, and
nothing else. -/
theorem repeats_exact (settings : Settings) :
    (((Node.document d).places.map Child.steps).Nodup ∧
      ∀ x : Child, x ∈ (Node.document d).places ↔
        ∃ above, Leads (.document d) x.steps above x.node) ∧
    (∃ E, (Run.ofDocument (settings.upTo none) ⟨s, d⟩ [uniqueArgumentNames]).result = .ok E ∧
      E.map Diagnostic.withoutPath = (Node.document d).places.flatMap fun x =>
        sharedNames .repeatedArgument
          ((x.node.parts Node.argument?).map fun a => (a.name, a.loc))) ∧
    (∃ E, (Run.ofDocument (settings.upTo none) ⟨s, d⟩ [uniqueVariableNames]).result = .ok E ∧
      E.map Diagnostic.withoutPath = (Node.document d).places.flatMap fun x =>
        sharedNames .repeatedVariable
          ((x.node.parts Node.variableDefinition?).map fun v => (v.var.name, v.var.loc))) ∧
    (∃ E, (Run.ofDocument (settings.upTo none) ⟨s, d⟩ [uniqueInputFieldNames]).result = .ok E ∧
      E.map Diagnostic.withoutPath = (Node.document d).places.flatMap fun x =>
        (secondUses ObjectField.name (x.node.parts Node.objectField?)).map fun y =>
          .atLocations (.repeatedInputField y.2.name) [y.1.loc, y.2.loc]) ∧
    (∃ E, (Run.ofDocument (settings.upTo none) ⟨s, d⟩
        [uniqueDirectivesPerLocation]).result = .ok E ∧
      E.map Diagnostic.withoutPath = (Node.document d).places.flatMap fun x =>
        (secondUses Directive.name ((x.node.parts Node.directive?).filter (givenOnce s))).map
          fun y => .atLocations (.repeatedDirective y.2.name) [y.1.loc, y.2.loc]) ∧
    ∀ names : List String, (repeated names).Nodup ∧ ∀ n, n ∈ repeated names ↔ 2 ≤ names.count n :=
  ⟨⟨Node.nodup_steps_places _, fun _ => Node.mem_places⟩,
    Rule.result_places settings (readsNode_uniqueArgumentNames s d),
    Rule.result_places settings (readsNode_uniqueVariableNames s d),
    Rule.result_places settings (readsNode_uniqueInputFieldNames s d),
    Rule.result_places settings (readsNode_uniqueDirectivesPerLocation s d),
    fun names => ⟨nodup_repeated names, fun _ => mem_repeated⟩⟩

end Rules

end GraphQLCheck
