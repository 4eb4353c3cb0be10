import ShaderTree.Proofs.Sites

/-! What a walk inserts where, read off its visits. An insertion goes into the innermost block around
the visit, right before the statement that is being walked; a visit between two statements of the
block itself inserts between them. -/
namespace ShaderTree.Walk

section
variable (tree : Tree)

/-- What the visits insert into the block `block`, or outside of all blocks. -/
def put (block : Option NodeId) (visits : List (Visit σ)) : List NodeId :=
  (visits.filter (·.site.block? tree = block)).flatMap Visit.inserted

def landing (block statement : NodeId) (visits : List (Visit σ)) : List NodeId :=
  (visits.filter fun visit => visit.site.block? tree = some block ∧
    visit.site.statement tree visit.id = statement).flatMap Visit.inserted

def gaps (block : NodeId) (visits : List (Visit σ)) : List (List NodeId) :=
  (visits.filter fun visit => visit.moment = .between ∧ visit.id = block).map Visit.inserted

/-- The statements, each after what is inserted in the gap before it and while it is walked. -/
def interleave (before : NodeId → List NodeId) : (gaps : List (List NodeId)) → (statements : List NodeId) → List NodeId
  | _, [] => []
  | gaps, statement :: rest => gaps.headD [] ++ before statement ++ statement :: interleave before gaps.tail rest

/-- The node at `id` with what the visits insert. There is no gap before the first statement. -/
def splice (visits : List (Visit σ)) (id : NodeId) : Node → Node
  | .block statements => .block (interleave (landing tree id · visits) ([] :: gaps id visits) statements)
  | node => node

end

section
variable {before others : NodeId → List NodeId} {gaps : List (List NodeId)} {statements : List NodeId}

theorem interleave_congr (same : ∀ statement ∈ statements, before statement = others statement) :
    interleave before gaps statements = interleave others gaps statements := by
  induction statements generalizing gaps with
  | nil => rfl
  | cons statement rest ih =>
    rw [interleave, interleave, same statement List.mem_cons_self,
      ih fun other member => same other (List.mem_cons_of_mem _ member)]

/-- Without insertions the statements stay as they are. -/
theorem interleave_nil (none : ∀ statement ∈ statements, before statement = []) :
    interleave before [] statements = statements := by
  induction statements with
  | nil => rfl
  | cons statement rest ih =>
    rw [interleave, none statement List.mem_cons_self, List.tail_nil,
      ih fun other member => none other (List.mem_cons_of_mem _ member)]
    rfl

theorem splice_of_not_block {tree : Tree} {visits : List (Visit σ)} {id : NodeId} {node : Node}
    (plain : node.isBlock = false) : splice tree visits id node = node := by
  cases node with
  | block => cases plain
  | _ => rfl

theorem splice_isLeaf (tree : Tree) (visits : List (Visit σ)) (id : NodeId) (node : Node) :
    (splice tree visits id node).isLeaf = node.isLeaf := by
  cases node <;> rfl

theorem interleave_nil_cons : interleave before ([] :: []) statements = interleave before [] statements := by
  cases statements <;> rfl

/-- No statement is lost or moved. -/
theorem sublist_interleave : statements.Sublist (interleave before gaps statements) := by
  induction statements generalizing gaps with
  | nil => exact .slnil
  | cons statement rest ih => exact (ih.cons_cons statement).trans (List.sublist_append_right _ _)

/-- If there are no more statements than before, nothing was inserted. -/
theorem interleave_eq_of_length_le (few : (interleave before gaps statements).length ≤ statements.length) :
    interleave before gaps statements = statements :=
  (sublist_interleave.eq_of_length_le few).symm

end

section
variable {tree : Tree} {first rest visits : List (Visit σ)} {block statement : NodeId} {target : Option NodeId}

@[simp] theorem put_append : put tree target (first ++ rest) = put tree target first ++ put tree target rest := by
  simp [put]

@[simp] theorem landing_append : landing tree block statement (first ++ rest) =
    landing tree block statement first ++ landing tree block statement rest := by
  simp [landing]

@[simp] theorem gaps_append : gaps block (first ++ rest) = gaps block first ++ gaps block rest := by
  simp [gaps]

theorem put_eq_nil (none : ∀ visit ∈ visits, visit.site.block? tree ≠ target) : put tree target visits = [] := by
  have all : visits.filter (·.site.block? tree = target) = [] := List.filter_eq_nil_iff.mpr (by simpa using none)
  rw [put, all, List.flatMap_nil]

theorem landing_eq_nil (none : ∀ visit ∈ visits, visit.site.block? tree = some block →
    visit.site.statement tree visit.id ≠ statement) : landing tree block statement visits = [] := by
  have all : (visits.filter fun visit => visit.site.block? tree = some block ∧
    visit.site.statement tree visit.id = statement) = [] := List.filter_eq_nil_iff.mpr (by simpa using none)
  rw [landing, all, List.flatMap_nil]

theorem gaps_eq_nil (none : ∀ visit ∈ visits, visit.moment = .between → visit.id ≠ block) :
    gaps block visits = [] := by
  have all : (visits.filter fun visit => visit.moment = .between ∧ visit.id = block) = [] :=
    List.filter_eq_nil_iff.mpr (by simpa using none)
  rw [gaps, all, List.map_nil]

/-- What is inserted into the block while one of its statements is walked. -/
theorem landing_eq_put (all : ∀ visit ∈ visits, visit.site.block? tree = some block →
    visit.site.statement tree visit.id = statement) :
    landing tree block statement visits = put tree (some block) visits := by
  simp only [landing, put]
  congr 1
  refine List.filter_congr fun visit member => ?_
  have statement := all visit member
  simp only [decide_eq_decide, and_iff_left_iff_imp]
  exact statement

/-- The visit inserts into the block at `id`, or would. -/
def Visit.Touches (tree : Tree) (id : NodeId) (visit : Visit σ) : Prop :=
  visit.site.block? tree = some id ∨ visit.moment = .between ∧ visit.id = id

variable {id : NodeId}

theorem landing_untouched (none : ∀ visit ∈ visits, ¬ visit.Touches tree id) : landing tree id statement visits = [] :=
  landing_eq_nil fun visit member inside => absurd (.inl inside) (none visit member)

theorem gaps_untouched (none : ∀ visit ∈ visits, ¬ visit.Touches tree id) : gaps id visits = [] :=
  gaps_eq_nil fun visit member between same => none visit member (.inr ⟨between, same⟩)

theorem put_untouched (none : ∀ visit ∈ visits, ¬ visit.Touches tree id) : put tree (some id) visits = [] :=
  put_eq_nil fun visit member inside => none visit member (.inl inside)

/-- The node at `id`, a `node` at the start, stands in `after` with what the visits insert. Nothing
that they insert is left out, and no statement is lost or doubled. -/
structure Spliced (tree : Tree) (visits : List (Visit σ)) (id : NodeId) (node : Node) (after : Tree) : Prop where
  found : after.nodes.get? id = some (splice tree visits id node)
  all : ∀ statements, node = .block statements →
    (interleave (landing tree id · visits) ([] :: gaps id visits) statements).Perm
      (statements ++ put tree (some id) visits)

namespace Spliced

variable {node : Node} {after other : Tree}

theorem of_untouched (none : ∀ visit ∈ visits, ¬ visit.Touches tree id) (found : after.nodes.get? id = some node) :
    Spliced tree visits id node after := by
  have same (statements : List NodeId) :
      interleave (landing tree id · visits) ([] :: gaps id visits) statements = statements := by
    rw [gaps_untouched none, interleave_nil_cons, interleave_nil fun _ _ => landing_untouched none]
  refine ⟨found.trans ?_, fun statements _ => ?_⟩
  · cases node with
    | block statements => rw [splice, same]
    | _ => rfl
  · rw [same, put_untouched none, List.append_nil]

theorem append_left (none : ∀ visit ∈ first, ¬ visit.Touches tree id) (spliced : Spliced tree rest id node after) :
    Spliced tree (first ++ rest) id node after := by
  have same (statement : NodeId) : landing tree id statement (first ++ rest) = landing tree id statement rest := by
    rw [landing_append, landing_untouched none, List.nil_append]
  have gap : gaps id (first ++ rest) = gaps id rest := by rw [gaps_append, gaps_untouched none, List.nil_append]
  refine ⟨spliced.found.trans ?_, fun statements block => ?_⟩
  · cases node with
    | block statements => simp only [splice, same, gap]
    | _ => rfl
  · simpa only [same, gap, put_append, put_untouched none, List.nil_append] using spliced.all statements block

theorem append_right (none : ∀ visit ∈ rest, ¬ visit.Touches tree id) (spliced : Spliced tree first id node after) :
    Spliced tree (first ++ rest) id node after := by
  have same (statement : NodeId) : landing tree id statement (first ++ rest) = landing tree id statement first := by
    rw [landing_append, landing_untouched none, List.append_nil]
  have gap : gaps id (first ++ rest) = gaps id first := by rw [gaps_append, gaps_untouched none, List.append_nil]
  refine ⟨spliced.found.trans ?_, fun statements block => ?_⟩
  · cases node with
    | block statements => simp only [splice, same, gap]
    | _ => rfl
  · simpa only [same, gap, put_append, put_untouched none, List.append_nil] using spliced.all statements block

theorem congr (spliced : Spliced tree visits id node after)
    (same : ∀ node, after.nodes.get? id = some node → other.nodes.get? id = some node) :
    Spliced tree visits id node other :=
  ⟨same _ spliced.found, spliced.all⟩

/-- A block that nothing is inserted into stays as it is. -/
theorem unchanged (spliced : Spliced tree visits id node after) (nothing : put tree (some id) visits = []) :
    after.nodes.get? id = some node := by
  refine spliced.found.trans ?_
  cases node with
  | block statements =>
    have length := (spliced.all statements rfl).length_eq
    rw [nothing, List.append_nil] at length
    rw [splice, interleave_eq_of_length_le (Nat.le_of_eq length)]
  | _ => rfl

end Spliced
end
end ShaderTree.Walk
