import BoardTrial.Rule

/-!
# Plans

A rule laid out as a numbered list of nodes. Each node comes after all nodes below it, so that what
is below node `n` takes up the numbers from `n`'s start up to `n`, and the whole rule is the last
node. What has happened to each node is kept apart from the plan, in a `Progress`.

Plans are built by pushing a rule behind the nodes that are there, its parts first (`Plan.push`). All
the nodes that this comes to are said at once by `Rule.layOut` (`Plan.push_eq`).

This module models the compiler of rules.
-/

namespace BoardTrial

/-- A node of a plan. Nodes below it are given by their numbers. -/
inductive Node where
  /-- Never satisfied. -/
  | nothing
  /-- One interaction. -/
  | leaf (i : Interaction)
  /-- Nodes to be satisfied one after the other. -/
  | inOrder (children : List Nat)
  /-- Nodes to be satisfied in any order. -/
  | inAnyOrder (children : List Nat)
  /-- Nodes of which one is to be satisfied. -/
  | firstOrSecond (first second : Nat)
  deriving DecidableEq

namespace Node

/-- The nodes right below a node. -/
def children : Node → List Nat
  | nothing | leaf _ => []
  | inOrder cs | inAnyOrder cs => cs
  | firstOrSecond a b => [a, b]

end Node

/-- A rule laid out as a numbered list of nodes. -/
structure Plan where
  /-- The nodes by number. -/
  nodes : Array Node
  /-- By number, the first node of what is below each node. -/
  starts : Array Nat
  /-- The number of the whole rule. -/
  root : Nat
  deriving DecidableEq

namespace Plan

/-- How many nodes there are. -/
def size (plan : Plan) : Nat := plan.nodes.size

/-- Puts a node behind the others, with the start of what is below it: its number, and the plan. -/
def add (plan : Plan) (node : Node) (start : Nat) : Nat × Plan :=
  (plan.size, { plan with nodes := plan.nodes.push node, starts := plan.starts.push start })

mutual

/-- Lays out a rule behind the nodes that are there, its parts first: its number, and the plan. -/
def push (plan : Plan) : Rule → Nat × Plan
  | .doNothing => plan.add .nothing plan.size
  | .leaf i => plan.add (.leaf i) plan.size
  | .inOrder rs =>
    let (children, plan') := plan.pushAll rs
    plan'.add (.inOrder children) plan.size
  | .inAnyOrder rs =>
    let (children, plan') := plan.pushAll rs
    plan'.add (.inAnyOrder children) plan.size
  | .firstOrSecond a b =>
    let (first, plan') := plan.push a
    let (second, plan'') := plan'.push b
    plan''.add (.firstOrSecond first second) plan.size

/-- Lays out several rules one after another: their numbers, and the plan. -/
def pushAll (plan : Plan) : List Rule → List Nat × Plan
  | [] => ([], plan)
  | r :: rs =>
    let (n, plan') := plan.push r
    let (ns, plan'') := plan'.pushAll rs
    (n :: ns, plan'')

end

/-- The plan of a rule. -/
def ofRule (r : Rule) : Plan :=
  let (root, plan) := push ⟨#[], #[], 0⟩ r
  { plan with root }

/-- The node with number `n`. -/
def node? (plan : Plan) (n : Nat) : Option Node := plan.nodes[n]?

/-- The first node of what is below `n`. -/
def startOf (plan : Plan) (n : Nat) : Nat := plan.starts.getD n n

/-- The interaction that node `n` waits for, if it is a leaf. -/
def interaction? (plan : Plan) (n : Nat) : Option Interaction :=
  match plan.node? n with
  | some (.leaf i) => some i
  | _ => none

/-- Whether node `m` is `n` or below it. -/
def isWithin (plan : Plan) (n m : Nat) : Bool := plan.startOf n ≤ m && m ≤ n

/-- Node `m` is `n`, or can be reached from it by going to nodes right below, again and again. -/
inductive Below (plan : Plan) (n : Nat) : Nat → Prop where
  /-- The node itself. -/
  | self : Below plan n n
  /-- A node right below one that can be reached. -/
  | child {m c : Nat} {node : Node} : Below plan n m → plan.node? m = some node →
      c ∈ node.children → Below plan n c

end Plan

namespace Rule

/-! ### All nodes at once -/

mutual

/-- How many nodes are below the root of a rule. -/
def nodesBelow : Rule → Nat
  | doNothing | leaf _ => 0
  | inOrder rs | inAnyOrder rs => nodesOfAll rs
  | firstOrSecond a b => (a.nodesBelow + 1) + (b.nodesBelow + 1)

/-- How many nodes several rules have. -/
def nodesOfAll : List Rule → Nat
  | [] => 0
  | r :: rs => (r.nodesBelow + 1) + nodesOfAll rs

end

/-- The numbers of the roots of several rules laid out one after another from `base` on. -/
def rootsFrom (base : Nat) : List Rule → List Nat
  | [] => []
  | r :: rs => (base + r.nodesBelow) :: rootsFrom (base + (r.nodesBelow + 1)) rs

mutual

/-- The nodes of a rule laid out from number `base` on, each with the start of what is below it. -/
def layOut (base : Nat) : Rule → List (Node × Nat)
  | doNothing => [(.nothing, base)]
  | leaf i => [(.leaf i, base)]
  | inOrder rs => layOutAll base rs ++ [(.inOrder (rootsFrom base rs), base)]
  | inAnyOrder rs => layOutAll base rs ++ [(.inAnyOrder (rootsFrom base rs), base)]
  | firstOrSecond a b =>
    let second := base + (a.nodesBelow + 1)
    a.layOut base ++ b.layOut second ++
      [(.firstOrSecond (base + a.nodesBelow) (second + b.nodesBelow), base)]

/-- The nodes of several rules laid out one after another from number `base` on. -/
def layOutAll (base : Nat) : List Rule → List (Node × Nat)
  | [] => []
  | r :: rs => r.layOut base ++ layOutAll (base + (r.nodesBelow + 1)) rs

end

mutual

@[simp] theorem length_layOut : ∀ (base : Nat) (r : Rule),
    (r.layOut base).length = r.nodesBelow + 1
  | _, doNothing | _, leaf _ => rfl
  | base, inOrder rs | base, inAnyOrder rs => by
    simp [layOut, nodesBelow, length_layOutAll base rs]
  | base, firstOrSecond a b => by
    simp only [layOut, nodesBelow, List.length_append, length_layOut base a, List.length_singleton,
      length_layOut (base + (a.nodesBelow + 1)) b]

@[simp] theorem length_layOutAll : ∀ (base : Nat) (rs : List Rule),
    (layOutAll base rs).length = nodesOfAll rs
  | _, [] => rfl
  | base, r :: rs => by
    simp only [layOutAll, nodesOfAll, List.length_append, length_layOut base r,
      length_layOutAll (base + (r.nodesBelow + 1)) rs]

end

@[simp] theorem length_rootsFrom (base : Nat) (rs : List Rule) :
    (rootsFrom base rs).length = rs.length := by
  induction rs generalizing base with
  | nil => rfl
  | cons r rs ih => simp [rootsFrom, ih]

end Rule

namespace Plan

/-! ### Rules are laid out one behind the other -/

/-- Nodes put behind those that are there, each with the start of what is below it. -/
def append (plan : Plan) (l : List (Node × Nat)) : Plan where
  nodes := plan.nodes ++ (l.map (·.1)).toArray
  starts := plan.starts ++ (l.map (·.2)).toArray
  root := plan.root

@[simp] theorem append_nil (plan : Plan) : plan.append [] = plan := by
  simp [append]

@[simp] theorem append_append (plan : Plan) (l k : List (Node × Nat)) :
    (plan.append l).append k = plan.append (l ++ k) := by
  simp [append]

@[simp] theorem size_append (plan : Plan) (l : List (Node × Nat)) :
    (plan.append l).size = plan.size + l.length := by
  simp [append, size]

theorem add_eq (plan : Plan) (node : Node) (start : Nat) :
    plan.add node start = (plan.size, plan.append [(node, start)]) := by
  simp [add, append]

mutual

/-- **A rule is laid out behind what is there**, and its number is that of its last node. -/
theorem push_eq (plan : Plan) : ∀ r : Rule,
    plan.push r = (plan.size + r.nodesBelow, plan.append (r.layOut plan.size))
  | .doNothing | .leaf _ => add_eq ..
  | .inOrder rs | .inAnyOrder rs => by
    simp only [push, pushAll_eq plan rs, add_eq, size_append, append_append,
      Rule.length_layOutAll, Rule.nodesBelow, Rule.layOut]
  | .firstOrSecond a b => by
    simp only [push, push_eq plan a, push_eq (plan.append (a.layOut plan.size)) b, add_eq,
      size_append, append_append, List.length_append, Rule.length_layOut, Rule.nodesBelow,
      Rule.layOut, List.append_assoc, Nat.add_assoc]

/-- Several rules are laid out one behind the other. -/
theorem pushAll_eq (plan : Plan) : ∀ rs : List Rule,
    plan.pushAll rs = (Rule.rootsFrom plan.size rs, plan.append (Rule.layOutAll plan.size rs))
  | [] => by simp only [pushAll, Rule.rootsFrom, Rule.layOutAll, append_nil]
  | r :: rs => by
    simp only [pushAll, push_eq plan r, pushAll_eq (plan.append (r.layOut plan.size)) rs,
      size_append, append_append, Rule.length_layOut, Rule.rootsFrom, Rule.layOutAll]

end

theorem ofRule_eq (r : Rule) :
    ofRule r = { append ⟨#[], #[], 0⟩ (r.layOut 0) with root := r.nodesBelow } := by
  have hsize : size ⟨#[], #[], 0⟩ = 0 := rfl
  simp only [ofRule, push_eq, hsize, Nat.zero_add]

@[simp] theorem nodes_ofRule (r : Rule) :
    (ofRule r).nodes = ((r.layOut 0).map (·.1)).toArray := by
  simp [ofRule_eq, append]

@[simp] theorem starts_ofRule (r : Rule) :
    (ofRule r).starts = ((r.layOut 0).map (·.2)).toArray := by
  simp [ofRule_eq, append]

@[simp] theorem size_ofRule (r : Rule) : (ofRule r).size = r.nodesBelow + 1 := by
  simp [size]

@[simp] theorem root_ofRule (r : Rule) : (ofRule r).root = r.nodesBelow := by
  rw [ofRule_eq]

end Plan

end BoardTrial
