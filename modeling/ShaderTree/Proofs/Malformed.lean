import Mathlib.Algebra.Order.BigOperators.Group.List
import Mathlib.Algebra.Order.Group.Nat
import ShaderTree.Proofs.Faults
import ShaderTree.Proofs.Resolution

/-! Validation of malformed trees. Whatever the handles in a tree are, a validation with all
checks answers, provided that the types in the tree can be counted. It faults in three
places only: where a declaration with an initial value declares what is no node, where a
function that is called has a parameter outside of the pool, and where the arguments of a
constructor have more components than a count can hold. -/
namespace ShaderTree

namespace Arguments

variable {arguments : Arguments} {pool : Pool} {cause : Fault}

theorem componentCount_fault_from {start : Nat} (failed : arguments.foldlM (m := Except Rejection)
      (fun given (node, ty) => do
        unless ty.hasComponents do throw (.invalid (.typeMismatch node ty))
        Count.add given (← ty.objectSize pool)) start = .error (.fault cause)) :
    cause = .overflow ∧ Count.limit ≤ start + arguments.sizes.sum := by
  induction arguments generalizing start with
  | nil => cases failed
  | cons first rest ih =>
    obtain ⟨node, ty⟩ := first
    simp only [sizes, List.map_cons, List.sum_cons]
    rw [List.foldlM_cons, bind_eq_error] at failed
    by_cases has : ty.hasComponents = true
    · simp only [has, if_true, Ty.objectSize_eq_components has, bind_eq_error, bind_eq_ok, Rejection.lift_eq_ok,
        Rejection.lift_eq_fault, reduceCtorEq, Except.ok.injEq, exists_eq_left', false_or, Count.add] at failed
      by_cases fits : start + ty.components < Count.limit
      · simp only [if_pos fits, reduceCtorEq, Except.ok.injEq, exists_eq_left', false_or] at failed
        obtain ⟨overflow, large⟩ := ih failed
        simp only [sizes] at large
        exact ⟨overflow, by omega⟩
      · simp only [if_neg fits, reduceCtorEq, false_and, exists_false, or_false, Except.error.injEq] at failed
        exact ⟨failed.symm, by omega⟩
    · simp only [has] at failed
      rcases failed with failed | ⟨_, failed, _⟩ <;> cases failed

/-- Components can be counted as long as a count holds them. -/
theorem componentCount_fault (failed : arguments.componentCount pool = .error (.fault cause)) :
    cause = .overflow ∧ Count.limit ≤ arguments.sizes.sum := by
  have overflow := componentCount_fault_from failed
  rwa [Nat.zero_add] at overflow

/-- The components of the last argument are some of those given. -/
theorem build_total (pool : Pool) (ty : Ty) (expected : Nat) (has : ∀ argument ∈ arguments, argument.2.hasComponents = true) :
    ∃ built, arguments.build pool ty expected arguments.sizes.sum = .ok built := by
  match arguments with
  | [] => exact ⟨_, rfl⟩
  | [(_, single)] => exact ⟨_, rfl⟩
  | first :: second :: rest =>
    have member : (second :: rest).getLast (List.cons_ne_nil second rest) ∈ first :: second :: rest :=
      List.mem_cons_of_mem _ (List.getLast_mem _)
    have among : _ ≤ (sizes (first :: second :: rest)).sum := List.le_sum_of_mem (List.mem_map_of_mem member)
    simp only [build, Ty.objectSize_eq_components (has _ member), Count.sub]
    split
    · exact ⟨_, rfl⟩
    · exact ⟨_, bind_eq_ok.mpr ⟨_, rfl, bind_eq_ok.mpr ⟨_, if_pos among, rfl⟩⟩⟩

theorem checkLength_answers {node : NodeId} {expected : Nat} :
    arguments.checkLength node expected ≠ .error (.fault cause) := by
  unfold checkLength
  split <;> simp

theorem checkShapes_answers {expected : List Ty} : arguments.checkShapes expected ≠ .error (.fault cause) := by
  unfold checkShapes
  split <;> simp

end Arguments

theorem checkComponents_fault {pool : Pool} {node : NodeId} {ty : Ty} {arguments : Arguments} {cause : Fault}
    (has : ty.hasComponents = true) (failed : checkComponents pool node ty arguments = .error (.fault cause)) :
    cause = .overflow ∧ Count.limit ≤ arguments.sizes.sum := by
  simp only [checkComponents, bind_eq_error, Ty.objectSize_eq_components has] at failed
  rcases failed with failed | ⟨given, counted, failed | ⟨expected, _, failed⟩⟩
  · exact Arguments.componentCount_fault failed
  · cases failed
  · obtain ⟨all, rfl, _⟩ := Arguments.componentCount_eq_ok.mp counted
    obtain ⟨built, done⟩ := Arguments.build_total pool ty expected all
    rw [done] at failed
    rcases failed with failed | ⟨verdict, _, failed⟩
    · cases failed
    · cases verdict <;> cases failed

/-- The check of a constructor faults where the arguments cannot be counted, or the structure to build is missing. -/
theorem checkConstruct_eq_fault {pool : Pool} {node : NodeId} {ty : Ty} {arguments : Arguments} {cause : Fault}
    (failed : checkConstruct pool node ty arguments = .error (.fault cause)) :
    cause = .overflow ∧ Count.limit ≤ arguments.sizes.sum ∨
      ∃ ref, ty.reference? = some ref ∧ ref.resolve pool = .error cause := by
  have fields {expected : Nat} {types : List Ty} : (do
      arguments.checkLength node expected
      arguments.checkShapes types) ≠ .error (.fault cause) := by
    intro failed
    rcases bind_eq_error.mp failed with failed | ⟨_, _, failed⟩
    · exact Arguments.checkLength_answers failed
    · exact Arguments.checkShapes_answers failed
  obtain ⟨shape, precision, qualifier, array⟩ := ty
  cases array with
  | some size => exact absurd failed fields
  | none =>
    cases shape with
    | scalar | vector | matrix => exact .inl (checkComponents_fault rfl failed)
    | struct symbol =>
      rcases bind_eq_error.mp failed with failed | ⟨_, _, failed⟩
      · exact .inr ⟨symbol, rfl, Rejection.lift_eq_fault.mp failed⟩
      · exact absurd failed fields
    | _ => cases failed

/-- A constructor of a type that can be counted is checked, unless its arguments cannot be counted. -/
theorem checkConstruct_fault {pool : Pool} {node : NodeId} {ty : Ty} {arguments : Arguments} {count : Nat} {cause : Fault}
    (counted : ty.objectSize pool = .ok count) (failed : checkConstruct pool node ty arguments = .error (.fault cause)) :
    cause = .overflow ∧ Count.limit ≤ arguments.sizes.sum := by
  refine (checkConstruct_eq_fault failed).resolve_right ?_
  rintro ⟨ref, refers, missing⟩
  obtain ⟨found, resolved⟩ := Ty.resolves_of_countWithin counted refers
  cases missing.symm.trans resolved

namespace Tree

/-- The types in the part of the tree that is reached have a size: the structures that they refer to are
there, contain no cycle, and their sizes are no larger than a count can be. -/
def Sized (tree : Tree) (table : SymbolTable) : Prop :=
  ∀ id node ty, tree.Reachable id → tree.nodes.get? id = some node → node.ty? = some ty →
    ∃ count, ty.objectSize table.pool = .ok count

/-- Where a validation of the tree with all checks can fault, and with what. -/
inductive Breaks (tree : Tree) (table : SymbolTable) : Fault → Prop where
  /-- The type of the variable that is initialized is read before the node is known to exist. -/
  | declarator {id declared value : NodeId} (reached : tree.Reachable id)
      (found : tree.nodes.get? id = some (.declaration declared (some value)))
      (outside : tree.nodes.size ≤ declared.index) : Breaks tree table .outOfBounds
  /-- The parameters of a function that is called are not known to exist. -/
  | parameter {id : NodeId} {callee : SymbolRef} {arguments : List NodeId} {ty : Ty} {function : Function}
      {handle : SymbolHandle} (reached : tree.Reachable id)
      (found : tree.nodes.get? id = some (.aggregate (.call callee) arguments ty))
      (known : table.function? callee = some function) (listed : .pool handle ∈ function.parameters)
      (outside : table.pool.size ≤ handle.index) : Breaks tree table .outOfBounds
  /-- The components of all arguments are added up. -/
  | components {id : NodeId} {arguments : List NodeId} {ty : Ty} {types : List Ty} (reached : tree.Reachable id)
      (found : tree.nodes.get? id = some (.aggregate .construct arguments ty))
      (typed : (arguments.map tree.face).map Face.ty? = types.map some)
      (large : Count.limit ≤ (types.map Ty.components).sum) : Breaks tree table .overflow

end Tree

namespace Validator

variable {validator : Validator} {causes : Fault → Prop} {before : Progress} {id : NodeId}

theorem checkCall_faults {callee : SymbolRef} {arguments : Arguments} {ty : Ty}
    (found : ∀ cause, validator.table.resolve callee = .error cause → causes cause)
    (each : ∀ function, validator.table.function? callee = some function → ∀ parameter ∈ function.parameters, ∀ cause,
      validator.table.resolve parameter = .error cause → causes cause) :
    FaultsOnly causes (validator.checkCall id callee arguments ty) before := by
  refine .bind (.lift found) fun symbol _ passes => ?_
  obtain ⟨resolved, rfl⟩ := Passes.lift_iff.mp passes
  cases called : symbol.asFunction? with
  | none => exact .reject _
  | some function =>
    have known : validator.table.function? callee = some function :=
      SymbolTable.function?_eq_some.mpr ⟨symbol, resolved, called⟩
    simp only
    split
    · refine .bind (.forM (fun _ => True) ?_ (fun _ _ _ _ _ _ => trivial) trivial) fun _ _ _ => .accept_or_reject _ _ _
      rintro ⟨parameter, argument⟩ member now _
      refine .bind (.lift (each function known parameter (List.of_mem_zip member).1)) fun _ _ _ => .accept_or_reject _ _ _
    · exact .rejected _

/-- With all checks on, what a check of a node faults with is where the tree breaks. -/
theorem guards_all {tree : Tree} {table : SymbolTable} (sized : tree.Sized table) :
    Guards ⟨.all, tree, table⟩ (tree.Breaks table) := by
  constructor
  · intro id ref ty reached found handled cause failed
    cases ref with
    | builtIn symbol => cases failed
    | pool handle =>
      have outside := (Arena.read_eq_error.mp failed).2
      have inside := Arena.contains_iff.mp (handled rfl handle rfl)
      exact absurd inside (Nat.not_lt_of_le outside)
  · intro id values ty reached found cause failed
    obtain ⟨count, counted⟩ := sized id _ ty reached found rfl
    cases counted.symm.trans failed
  · intro id op arguments ty reached found pairs ids types before
    cases op with
    | construct =>
      obtain ⟨count, counted⟩ := sized id _ ty reached found rfl
      refine .liftRejection fun cause failed => ?_
      obtain ⟨rfl, large⟩ := checkConstruct_fault counted failed
      rw [Arguments.sizes_eq] at large
      exact .components reached found types large
    | call callee =>
      refine .bind checkFunction_faults fun _ now checked => ?_
      obtain ⟨known, rfl⟩ := checkFunction_iff.mp checked
      refine checkCall_faults (fun cause failed => ?_) fun function known parameter listed cause failed => ?_
      · obtain ⟨_, resolved⟩ := SymbolTable.holds_of_function known
        cases resolved.symm.trans failed
      cases parameter with
      | builtIn symbol => cases failed
      | pool handle =>
        obtain ⟨rfl, outside⟩ := Arena.read_eq_error.mp failed
        exact .parameter reached found known listed outside
  · intro id declared value reached found cause failed
    rcases bind_eq_error.mp failed with failed | ⟨_, _, failed⟩
    · obtain ⟨rfl, outside⟩ := Arena.read_eq_error.mp failed
      exact .declarator reached found outside
    · cases failed

end Validator

/-- A tree whose types can be counted is accepted or rejected by a validation with all checks, or breaks
it in one of the known places. One with a child outside of the arena is not accepted. -/
theorem Tree.validate_answers {tree : Tree} {table : SymbolTable} (sized : tree.Sized table) :
    (tree.validate table .all = .ok () ∨ (∃ error, tree.validate table .all = .error (.invalid error)) ∨
      ∃ cause, tree.validate table .all = .error (.fault cause) ∧ tree.Breaks table cause) ∧
    ∀ parent child, tree.Reachable parent → tree.Child parent child → tree.nodes.size ≤ child.index →
      (∃ error, tree.validate table .all = .error (.invalid error)) ∨
        ∃ cause, tree.validate table .all = .error (.fault cause) ∧ tree.Breaks table cause := by
  have answers : tree.validate table .all = .ok () ∨ (∃ error, tree.validate table .all = .error (.invalid error)) ∨
      ∃ cause, tree.validate table .all = .error (.fault cause) ∧ tree.Breaks table cause := by
    cases outcome : tree.validate table .all with
    | ok done => exact .inl rfl
    | error rejection =>
      cases rejection with
      | invalid error => exact .inr (.inl ⟨error, rfl⟩)
      | fault cause => exact .inr (.inr ⟨cause, rfl, validate_faults_only rfl (Validator.guards_all sized) outcome⟩)
  refine ⟨answers, fun parent child reached link outside => answers.resolve_left fun accepted => ?_⟩
  have inside := (validate_unshared rfl accepted).inside parent child reached link
  exact absurd inside (Nat.not_lt_of_le outside)

def Tree.declaringNothing : Tree :=
  { nodes := ⟨#[.block [⟨1⟩], .declaration ⟨9⟩ (some ⟨2⟩), .constant [.bool true] .bool]⟩
    root := ⟨0⟩ }

theorem Tree.declaringNothing_sized (table : SymbolTable) : declaringNothing.Sized table := by
  rintro ⟨index⟩ node ty - found typed
  match index with
  | 0 | 1 =>
    cases found
    cases typed
  | 2 =>
    cases found
    cases typed
    exact ⟨1, rfl⟩
  | _ + 3 => cases found

/-- Without the initial value the validation would answer that there is no node `⟨9⟩`. -/
theorem Tree.validate_answers_declaringNothing :
    declaringNothing.Sized { builtIns := {}, profile := {} } ∧
      declaringNothing.validate { builtIns := {}, profile := {} } .all = .error (.fault .outOfBounds) ∧
      declaringNothing.Breaks { builtIns := {}, profile := {} } .outOfBounds := by
  have sized := declaringNothing_sized { builtIns := {}, profile := {} }
  have faults : declaringNothing.validate { builtIns := {}, profile := {} } .all = .error (.fault .outOfBounds) := rfl
  refine ⟨sized, faults, ?_⟩
  have reached : declaringNothing.Reachable ⟨1⟩ := .tail .refl ⟨.block [⟨1⟩], rfl, by simp [Node.children]⟩
  have link : declaringNothing.Child ⟨1⟩ ⟨9⟩ := ⟨.declaration ⟨9⟩ (some ⟨2⟩), rfl, by simp [Node.children]⟩
  rcases (validate_answers sized).2 ⟨1⟩ ⟨9⟩ reached link (by decide) with ⟨error, rejects⟩ | ⟨cause, again, breaks⟩
  · cases faults.symm.trans rejects
  · cases faults.symm.trans again
    exact breaks

end ShaderTree
