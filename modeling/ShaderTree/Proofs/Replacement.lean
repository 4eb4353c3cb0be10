import ShaderTree.Proofs.Arena
import ShaderTree.Tree.Basic

/-! Replacing a child. A node is its frame, which says what it is and which places for children it has, together with
the list of the children in these places. A replacement keeps the frame and changes the list, there where the child
that is looked for stands first. -/
namespace ShaderTree

namespace Node

variable {node other after : Node} {child replacement : NodeId}

/-- The node without its children. One handle stands in all their places. -/
def frame : Node → Node
  | symbol ref ty => symbol ref ty
  | constant values ty => constant values ty
  | binary op _ _ ty => binary op blank blank ty
  | unary op _ ty => unary op blank ty
  | ternary _ _ _ ty => ternary blank blank blank ty
  | aggregate op arguments ty => aggregate op (arguments.map fun _ => blank) ty
  | declaration _ initializer => declaration blank (initializer.map fun _ => blank)
  | block statements => block (statements.map fun _ => blank)
  | ifElse _ _ reject => ifElse blank blank (reject.map fun _ => blank)
  | loop kind init condition expression _ =>
    loop kind (init.map fun _ => blank) (condition.map fun _ => blank) (expression.map fun _ => blank) blank
  | branch kind value => branch kind (value.map fun _ => blank)
  | prototype function => prototype function
  | definition function _ => definition function blank
where
  blank : NodeId := ⟨0⟩

/-- Once it is known whether an optional place is filled, the list of children shows what is in it. -/
theorem place_eq {place twin : Option NodeId} {rest more : List NodeId}
    (filled : place.map (fun _ => frame.blank) = twin.map fun _ => frame.blank)
    (children : place.toList ++ rest = twin.toList ++ more) : place = twin ∧ rest = more := by
  cases place <;> cases twin <;> simp_all

theorem last_place_eq {place twin : Option NodeId}
    (filled : place.map (fun _ => frame.blank) = twin.map fun _ => frame.blank)
    (children : place.toList = twin.toList) : place = twin :=
  (place_eq filled (congrArg (· ++ []) children)).1

theorem eq_of_frame (frames : node.frame = other.frame) (lists : node.children = other.children) : node = other := by
  cases node <;> cases other <;> simp only [frame, reduceCtorEq] at frames <;>
    simp only [children, List.cons.injEq, and_true] at lists
  case symbol | constant | prototype => exact frames
  case binary | unary | ternary | aggregate | block | definition => simp_all
  case declaration.declaration =>
    obtain ⟨_, initializer⟩ := declaration.inj frames
    rw [lists.1, last_place_eq initializer lists.2]
  case ifElse.ifElse =>
    obtain ⟨_, _, reject⟩ := ifElse.inj frames
    rw [lists.1, lists.2.1, last_place_eq reject lists.2.2]
  case branch.branch =>
    obtain ⟨kind, value⟩ := branch.inj frames
    rw [kind, last_place_eq value lists]
  case loop.loop =>
    obtain ⟨rfl, init, condition, expression, _⟩ := loop.inj frames
    simp only [List.append_assoc] at lists
    -- what is behind a place is known once the places before it are
    obtain ⟨rfl, fromCondition⟩ := place_eq init lists
    obtain ⟨rfl, fromExpression⟩ := place_eq condition fromCondition
    obtain ⟨rfl, body⟩ := place_eq expression fromExpression
    rw [List.singleton_inj.mp body]

theorem isSome_replaceChild? (child replacement : NodeId) (node : Node) :
    (node.replaceChild? child replacement).isSome = true ↔ child ∈ node.children := by
  fun_cases replaceChild? child replacement node <;> simp_all [children, eq_comm]

theorem frame_replaceChild? (child replacement : NodeId) (node : Node) :
    ∀ after ∈ node.replaceChild? child replacement, after.frame = node.frame := by
  fun_cases replaceChild? child replacement node <;> simp [frame, List.map_const']

theorem replace_cons_of_ne {first : NodeId} {rest : List NodeId} (other : ¬ first = child) :
    (first :: rest).replace child replacement = first :: rest.replace child replacement := by
  rw [List.replace_cons, beq_false_of_ne (Ne.symm other)]

theorem children_replaceChild? (child replacement : NodeId) (node : Node) :
    ∀ after ∈ node.replaceChild? child replacement, after.children = node.children.replace child replacement := by
  fun_cases replaceChild? child replacement node <;> simp_all [children, List.replace_append, replace_cons_of_ne]

theorem replaceChild?_eq_some_iff : node.replaceChild? child replacement = some after ↔
    child ∈ node.children ∧ after.frame = node.frame ∧ after.children = node.children.replace child replacement := by
  constructor
  · intro done
    have among := (isSome_replaceChild? child replacement node).mp (done ▸ rfl)
    exact ⟨among, frame_replaceChild? child replacement node after done,
      children_replaceChild? child replacement node after done⟩
  · rintro ⟨among, frame, children⟩
    obtain ⟨made, done⟩ := Option.isSome_iff_exists.mp ((isSome_replaceChild? child replacement node).mpr among)
    rw [done]
    refine congrArg some (eq_of_frame ?_ ?_)
    · exact (frame_replaceChild? child replacement node made done).trans frame.symm
    · exact (children_replaceChild? child replacement node made done).trans children.symm

end Node

theorem replace_split {item other : NodeId} {items : List NodeId} (among : item ∈ items) : ∃ front back,
    items = front ++ item :: back ∧ item ∉ front ∧ items.replace item other = front ++ other :: back := by
  obtain ⟨front, back, rfl, first⟩ := List.eq_append_cons_of_mem among
  refine ⟨front, back, rfl, first, ?_⟩
  rw [List.replace_append_right first, List.replace_cons_self]

namespace Tree

/-- A replacement answers whether the child is listed. The first place that has the child gets the other one; places
and all else that makes the node stay, and where the child is not listed there is no change at all. -/
theorem replaceChild_children {tree : Tree} {id : NodeId} {node : Node} (found : tree.nodes.get? id = some node)
    (child replacement : NodeId) : ∃ after new,
      tree.replaceChild id child replacement = .ok (decide (child ∈ node.children), after) ∧
      after.nodes.get? id = some new ∧ new.frame = node.frame ∧
      (child ∈ node.children → ∃ front back, node.children = front ++ child :: back ∧ child ∉ front ∧
        new.children = front ++ replacement :: back) ∧
      (child ∉ node.children → after = tree) ∧
      after.root = tree.root ∧ after.nodes.size = tree.nodes.size ∧
      ∀ other, other ≠ id → after.nodes.get? other = tree.nodes.get? other := by
  have replaced := @Node.replaceChild?_eq_some_iff node
  have read : tree.read id = .ok node := Arena.read_eq_ok.mpr found
  by_cases among : child ∈ node.children
  · obtain ⟨new, done⟩ := Option.isSome_iff_exists.mp ((node.isSome_replaceChild? child replacement).mpr among)
    obtain ⟨_, frame, children⟩ := replaced.mp done
    obtain ⟨nodes, written, size, here, elsewhere⟩ := Arena.write_spec new (Arena.get?_eq_some_lt found)
    obtain ⟨front, back, split, first, replace⟩ := replace_split among
    refine ⟨{ tree with nodes }, new, ?_, here, frame, fun _ => ⟨front, back, split, first, children.trans replace⟩,
      fun missing => absurd among missing, rfl, size, elsewhere⟩
    simp only [replaceChild, read, done, write, written, among, decide_true, bind, Except.bind, pure, Except.pure]
  · have none : node.replaceChild? child replacement = none :=
      Option.not_isSome_iff_eq_none.mp (mt (node.isSome_replaceChild? child replacement).mp among)
    refine ⟨tree, node, ?_, found, rfl, fun listed => absurd listed among, fun _ => rfl, rfl, rfl, fun _ _ => rfl⟩
    simp only [replaceChild, read, none, among, decide_false, bind, Except.bind, pure, Except.pure]

/-- A loop without an initial statement, whose condition is its step as well. -/
def looping : Tree where
  nodes := ⟨#[.block [⟨1⟩], .loop .forLoop none (some ⟨2⟩) (some ⟨2⟩) ⟨3⟩, .constant [.bool true] .bool, .block [],
    .constant [.bool false] .bool]⟩
  root := ⟨0⟩

/-- The condition is replaced, and the step is not. -/
theorem replaceChild_children_looping :
    looping.nodes.get? ⟨1⟩ = some (.loop .forLoop none (some ⟨2⟩) (some ⟨2⟩) ⟨3⟩) ∧
    ∃ after, looping.replaceChild ⟨1⟩ ⟨2⟩ ⟨4⟩ = .ok (true, after) ∧
      after.nodes.get? ⟨1⟩ = some (.loop .forLoop none (some ⟨4⟩) (some ⟨2⟩) ⟨3⟩) := by
  have found : looping.nodes.get? ⟨1⟩ = some (.loop .forLoop none (some ⟨2⟩) (some ⟨2⟩) ⟨3⟩) := rfl
  obtain ⟨after, new, done, here, frame, listed, _⟩ := replaceChild_children found ⟨2⟩ ⟨4⟩
  obtain ⟨front, back, split, first, children⟩ := listed (by decide)
  refine ⟨found, after, done, here.trans (congrArg some (Node.eq_of_frame frame (children.trans ?_)))⟩
  cases front with
  | nil =>
    obtain rfl : [⟨2⟩, ⟨3⟩] = back := (List.cons.inj split).2
    rfl
  | cons handle front =>
    obtain rfl : ⟨2⟩ = handle := (List.cons.inj split).1
    exact absurd List.mem_cons_self first

end Tree
end ShaderTree
