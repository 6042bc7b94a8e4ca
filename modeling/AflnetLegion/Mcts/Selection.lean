import Mathlib.Order.WithBot
import AflnetLegion.Mcts.TreeNode

open Checked

namespace aflnet.mcts

/-- What a selection step cannot know: the order of the scores above `-INFINITY`,
which are floating point numbers or `INFINITY`, and the next random number. -/
structure Oracle where
  rank : NodeId → Nat
  rand : Nat

/-- `-INFINITY` is the bottom element. The other values depend on the statistics
of the node and are left to the oracle. -/
def tree_node_score (o : Oracle) (t : MctsTree) (tree_node : NodeId) : M (WithBot Nat) := do
  let d ← get_tree_node_data t tree_node
  if d.fully_explored then pure ⊥
  else if d.colour = .Golden ∧ d.seeds_count = 0 then pure ⊥
  else pure (WithBot.some (o.rank tree_node))

/-- The loop of `best_child` over the children from `child_index` on; `ties` holds
the indices of the children with the greatest score so far. -/
def collect_ties (o : Oracle) (t : MctsTree) : List NodeId → Nat → WithBot Nat → List Nat → M (List Nat)
  | [], _, _, ties => pure ties
  | child :: children, child_index, max_score, ties => do
    let score ← tree_node_score o t child
    if score < max_score then collect_ties o t children (child_index + 1) max_score ties
    else
      let ties := if max_score < score then [] else ties
      collect_ties o t children (child_index + 1) score (ties ++ [child_index])

/-- `g_node_nth_child`, with an index that may not have been set. It returns NULL behind the
last child, which the callers follow. -/
def nth_child (children : List NodeId) (index : Option Nat) : M NodeId :=
  match index with
  | none => fail .out_of_bounds
  | some i =>
    match children[i]? with
    | none => fail .null_dereference
    | some child => pure child

/-- An only child is returned whatever its score is. Of several ones with the best score one is
drawn, and the array of ties is read out of bounds if no score is above the first bound. -/
def best_child (o : Oracle) (t : MctsTree) (tree_node : NodeId) : M NodeId := do
  let n ← deref t tree_node
  if n.children.length = 1 then nth_child n.children (some 0)
  else do
    let ties ← collect_ties o t n.children 0 ⊥ []
    if ties.length = 1 then nth_child n.children ties[0]?
    else nth_child n.children ties[o.rand % ties.length]?

/-- `is_fully_explored`, which asks the first child of a Black node for its score. A Black node
is taken to have one child, as the assertion says. -/
def is_fully_explored (o : Oracle) (t : MctsTree) (parent_tree_node : NodeId) : M Bool := do
  let n ← deref t parent_tree_node
  if n.data.fully_explored then pure true
  else if n.data.colour ≠ .Black then pure false
  else do
    log_assert (n.children.length = 1) .black_has_one_child
    let child ← nth_child n.children (some 0)
    let d ← get_tree_node_data t child
    log_assert (d.colour ≠ .Golden) .black_child_is_not_golden
    let score ← tree_node_score o t child
    pure (score = ⊥)

/-- The loop heads of `select_tree_node`: the outer loop, the inner loop, the
assertion after the inner loop, and the return. -/
inductive Pc where
  | descend | backtrack | resume | done
  deriving DecidableEq, Repr

/-- The state of `select_tree_node` between two steps: the loop head, the current node and the
tree. -/
structure Selecting where
  pc : Pc
  tree_node : NodeId
  tree : MctsTree
  deriving DecidableEq, Repr

/-- Whether the parent of a node is Black; ROOT has no parent to look at. Below a Black node the
best child may be a dead one. -/
def parent_is_black (t : MctsTree) (n : GNode) : M Bool :=
  match n.parent with
  | none => pure false
  | some parent => do
    let d ← get_tree_node_data t parent
    pure (d.colour = .Black)

/-- The outer loop's body up to the inner loop: the best child is counted as selected before it
is known whether selection has to go back. -/
def select_descend (o : Oracle) (t : MctsTree) (tree_node : NodeId) : M Selecting := do
  let best ← best_child o t tree_node
  let t ← set_tree_node_data t best fun d => { d with selected := d.selected + 1 }
  let score ← tree_node_score o t best
  let n ← deref t best
  let black ← parent_is_black t n
  log_assert (⊥ < score ∨ black = true) .best_child_is_live
  pure { pc := .backtrack, tree_node := best, tree := t }

/-- The inner loop's body: from a node with the score `-INFINITY` back to its parent, which is
marked if it turns out to be fully explored. -/
def select_backtrack (o : Oracle) (t : MctsTree) (tree_node : NodeId) : M Selecting := do
  let n ← deref t tree_node
  log_assert (G_NODE_IS_ROOT n = false) .root_is_live
  match n.parent with
  | none => fail .null_dereference
  | some parent =>
    let explored ← is_fully_explored o t parent
    if explored then do
      let t ← set_tree_node_data t parent fun d => { d with fully_explored := true }
      pure { pc := .backtrack, tree_node := parent, tree := t }
    else pure { pc := .resume, tree_node := parent, tree := t }

/-- One step between loop heads. The outer loop ends at a SimNode, and the inner one at a node
that is live or whose parent is not fully explored. -/
def select_step (o : Oracle) (s : Selecting) : M Selecting :=
  match s.pc with
  | .descend => do
    let d ← get_tree_node_data s.tree s.tree_node
    if d.colour = .Golden then pure { s with pc := .done }
    else select_descend o s.tree s.tree_node
  | .backtrack => do
    let score ← tree_node_score o s.tree s.tree_node
    if score = ⊥ then select_backtrack o s.tree s.tree_node
    else pure { s with pc := .resume }
  | .resume => do
    let score ← tree_node_score o s.tree s.tree_node
    log_assert (⊥ < score) .selected_node_is_live
    pure { s with pc := .descend }
  | .done => pure s

/-- At most `fuel` steps, each with its own oracle: the logarithms, square roots and random
numbers of a step are not computed but given. -/
def select_loop (oracles : Nat → Oracle) : Nat → Selecting → M Selecting
  | 0, s => pure s
  | fuel + 1, s => do
    let s ← select_step (oracles 0) s
    select_loop (fun i => oracles (i + 1)) fuel s

/-- `select_tree_node` stopped after `fuel` steps; it has returned once `pc` is `done`. Where it
starts from is counted as selected too. -/
def select_tree_node (oracles : Nat → Oracle) (fuel : Nat) (t : MctsTree) (parent_tree_node : NodeId) :
    M Selecting := do
  let t ← set_tree_node_data t parent_tree_node fun d => { d with selected := d.selected + 1 }
  select_loop oracles fuel { pc := .descend, tree_node := parent_tree_node, tree := t }

/-- `Propagation` after the first round: `is_new` is credited to the selected
SimNode and to the selected seed, when that seed is stored there. -/
def Propagation (t : MctsTree) (leaf_selected : NodeId) (seed_selected : Option Nat) (is_new : Bool) :
    M MctsTree :=
  set_tree_node_data t leaf_selected fun d =>
    { d with
      discovered := d.discovered + is_new.toUInt32
      seeds := d.seeds.mapIdx fun i seed =>
        if seed_selected = some i then { seed with discovered := seed.discovered + is_new.toUInt32 } else seed }

end aflnet.mcts
