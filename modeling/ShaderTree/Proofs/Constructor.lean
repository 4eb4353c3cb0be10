import ShaderTree.Proofs.Splitting

/-! Scalarizing one constructor. Its arguments are split, the declarations of the
temporaries go in front of the statement walked, and the constructor gets the accesses
instead; no other old node changes. The new arguments build the same value, are accepted
by the check of constructors and no longer mix vectors with matrices. -/
namespace ShaderTree

namespace Tree

structure Changes (before after : Tree) (touched ids : List NodeId) : Prop where
  root : after.root = before.root
  size : before.nodes.size ≤ after.nodes.size
  kept : ∀ id, id.index < before.nodes.size → id ∉ touched →
    after.nodes.get? id = before.nodes.get? id
  fresh : ∀ id, id ∈ ids ↔ before.nodes.size ≤ id.index ∧ id.index < after.nodes.size
  nodup : ids.Nodup

namespace Changes

variable {before between after : Tree} {touched moreTouched first second : List NodeId}

theorem refl (tree : Tree) : Changes tree tree [] [] := by
  refine ⟨rfl, Nat.le_refl _, fun _ _ _ => rfl, ?_, List.nodup_nil⟩
  intro id
  simp only [List.not_mem_nil, false_iff]
  omega

theorem trans (earlier : Changes before between touched first)
    (later : Changes between after moreTouched second) :
    Changes before after (touched ++ moreTouched) (first ++ second) := by
  have grows := earlier.size
  have growsMore := later.size
  constructor
  case root => exact later.root.trans earlier.root
  case size => exact Nat.le_trans grows growsMore
  case kept =>
    intro id old outside
    rw [List.mem_append, not_or] at outside
    exact (later.kept id (by omega) outside.2).trans (earlier.kept id old outside.1)
  case fresh =>
    intro id
    rw [List.mem_append, earlier.fresh, later.fresh]
    omega
  case nodup => exact nodup_append_of_ranges earlier.fresh later.fresh earlier.nodup later.nodup

theorem weaken (changes : Changes before after touched first)
    (more : ∀ id ∈ touched, before.nodes.size ≤ id.index ∨ id ∈ moreTouched) :
    Changes before after moreTouched first := by
  refine ⟨changes.root, changes.size, ?_, changes.fresh, changes.nodup⟩
  intro id old outside
  apply changes.kept id old
  intro inside
  rcases more id inside with new | listed
  · omega
  · exact outside listed

theorem of_appends (appends : Appends before after first) : Changes before after [] first := by
  refine ⟨appends.root, appends.extension.size_le, ?_, appends.fresh, appends.nodup⟩
  intro id old _
  obtain ⟨node, found⟩ := Arena.get?_of_lt old
  exact (appends.extension id node found).trans found.symm

/-- A piece none of whose nodes is touched stays. -/
theorem of (changes : Changes before after touched first) {term : Term} (stands : term.Of before)
    (apart : ∀ id ∈ term.ids, id ∉ touched) : term.Of after :=
  stands.congr fun id inside => changes.kept id (stands.bounded id inside) (apart id inside)

end Changes

theorem write_changes {tree : Tree} {id : NodeId} (node : Node) (inside : id.index < tree.nodes.size) :
    ∃ after, tree.write id node = .ok after ∧ tree.Changes after [id] [] ∧
      after.nodes.size = tree.nodes.size ∧ after.nodes.get? id = some node := by
  obtain ⟨nodes, written, size, found, others⟩ := Arena.write_spec node inside
  refine ⟨{ tree with nodes }, ?_, ⟨rfl, Nat.le_of_eq size.symm, ?_, ?_, List.nodup_nil⟩, size, found⟩
  · rw [write, written]
    rfl
  · intro other _ outside
    exact others other fun same => outside (List.mem_singleton.mpr same)
  · intro other
    simp only [List.not_mem_nil, false_iff, size]
    omega

end Tree

theorem setNode_ends (state : WalkState σ) {id : NodeId} (node : Node)
    (inside : id.index < state.space.tree.nodes.size) :
    ∃ tree, Ends (Walk.work (Workspace.setNode id node)) state ()
        { state with space := { state.space with tree } } ∧
      state.space.tree.Changes tree [id] [] ∧ tree.nodes.size = state.space.tree.nodes.size ∧
      tree.nodes.get? id = some node := by
  obtain ⟨tree, written, changes, size, found⟩ := Tree.write_changes node inside
  refine ⟨tree, ?_, changes, size, found⟩
  exact .work (.onTree (bind_eq_ok.mpr ⟨tree, written, rfl⟩))

/-- Constructors of this type are scalarized by taking these arguments apart. -/
def Ty.target (ty : Ty) : Scalarize.Target := if ty.isVector then .matrices else .vectors

/-- A vector built from a matrix among others, or a matrix from a vector. -/
def Ty.mixes (ty : Ty) (types : List Ty) : Bool :=
  (ty.isVector || ty.isMatrix) && types.any ty.target.splits

def Arguments.Typed (tree : Tree) (arguments : Arguments) : Prop :=
  ∀ argument ∈ arguments, tree.ty? argument.1 = .ok (some argument.2)

theorem Arguments.typed_of_pieces {tree : Tree} {arguments : Arguments} {pieces : List Term}
    (ids : arguments.map Prod.fst = pieces.map Term.id)
    (types : (arguments.map Prod.snd).map some = pieces.map Term.ty?)
    (found : ∀ piece ∈ pieces, tree.nodes.get? piece.id = some piece.node) : arguments.Typed tree := by
  induction arguments generalizing pieces with
  | nil => intro argument none; contradiction
  | cons argument arguments ih =>
    obtain _ | ⟨piece, pieces⟩ := pieces
    · simp at ids
    · simp only [List.map_cons, List.cons.injEq] at ids types
      refine List.forall_mem_cons.mpr ⟨?_, ih ids.2 types.2 fun piece later => found piece (by simp [later])⟩
      rw [ids.1, types.1]
      exact Tree.ty?_eq_ok (found piece List.mem_cons_self)

theorem Pattern.anyArgument_eq {tree : Tree} {arguments : Arguments} (typed : arguments.Typed tree)
    (test : Ty → Bool) :
    anyArgument tree (arguments.map Prod.fst) test = .ok ((arguments.map Prod.snd).any test) := by
  unfold anyArgument
  induction arguments with
  | nil => rfl
  | cons argument arguments ih =>
    have first := typed argument List.mem_cons_self
    have others := ih fun argument later => typed argument (List.mem_cons_of_mem _ later)
    simp only [List.map_cons, List.anyM, List.any_cons, first, bind, Except.bind, pure, Except.pure,
      Option.any_some] at others ⊢
    cases test argument.2
    · exact others
    · rfl

theorem Pattern.selects_construct {tree : Tree} {id : NodeId} {arguments : Arguments} (typed : arguments.Typed tree)
    (found : tree.nodes.get? id = some (.aggregate .construct (arguments.map Prod.fst) ty))
    (pool : Pool) (parent : Option NodeId) :
    Pattern.selects { mixedConstructor := true } tree pool id parent =
      .ok (ty.mixes (arguments.map Prod.snd)) := by
  have read : tree.read id = .ok (.aggregate .construct (arguments.map Prod.fst) ty) :=
    Arena.read_eq_ok.mpr found
  simp only [selects, matchesAggregate, read, bind, Except.bind, Bool.false_and, Bool.true_and,
    if_false, Bool.false_eq_true, decide_true, if_true, Ty.mixes, Ty.target]
  by_cases vector : ty.isVector = true
  · simp only [vector, if_true, Bool.true_or, Bool.true_and]
    exact anyArgument_eq typed _
  · by_cases matrix : ty.isMatrix = true
    · simp only [vector, matrix, if_true, Bool.false_or, Bool.true_and, Bool.false_eq_true, if_false]
      exact anyArgument_eq typed _
    · simp [vector, matrix, pure, Except.pure]

theorem Ty.plain_of_mixes {ty : Ty} (mixed : ty.mixes types = true) :
    ty.isArray = false ∧ (ty.isVector = true ∨ ty.isMatrix = true) := by
  simp only [mixes, Bool.and_eq_true, Bool.or_eq_true] at mixed
  refine ⟨?_, mixed.1⟩
  rcases mixed.1 with vector | matrix
  · simp only [isVector, Bool.and_eq_true, Bool.not_eq_true'] at vector
    exact vector.1
  · simp only [isMatrix, Bool.and_eq_true, Bool.not_eq_true'] at matrix
    exact matrix.1

theorem Ty.hasComponents_of_mixes {ty : Ty} (mixed : ty.mixes types = true) :
    ty.hasComponents = true := by
  simp only [mixes, Bool.and_eq_true, Bool.or_eq_true] at mixed
  rcases mixed.1 with vector | matrix
  · simp [hasComponents, vector]
  · simp [hasComponents, matrix]

namespace Scalarize

structure Scalarized (id : NodeId) (op : AggregateOp) (ty : Ty) (arguments : List Term)
    (before after : WalkState Nat) (fresh : List NodeId) (declarations accesses : List Term) : Prop where
  splits : Splits after.space.table.pool ty.target ty.components before.space.table.pool.size arguments
    fresh declarations accesses
  changes : Tree.Changes before.space.tree after.space.tree [id] fresh
  found : after.space.tree.nodes.get? id = some (.aggregate op (accesses.map Term.id) ty)
  declared : ∀ declaration ∈ declarations, Declared after.space.tree declaration
  built : ∀ access ∈ accesses, access.Of after.space.tree
  rebuilt : after.rebuilt = before.rebuilt ++ (declarations.map Term.id).toArray
  table : before.space.table.Grows after.space.table
  size : after.space.table.pool.size = before.space.table.pool.size + arguments.length

theorem Splits.accesses_fresh {pool : Pool} (splits : Splits pool target needed first arguments fresh
    declarations accesses) : ∀ access ∈ accesses, ∀ id ∈ access.ids, id ∈ fresh := by
  induction splits with
  | nil => simp
  | cons _ _ _ _ _ _ ih =>
    intro access member id inside
    rcases List.mem_append.mp member with own | later
    · simp only [List.mem_append, List.mem_flatMap]
      exact .inl (.inr ⟨access, own, inside⟩)
    · exact List.mem_append_right _ (ih access later id inside)

theorem Splits.declarations_fresh {pool : Pool} (splits : Splits pool target needed first arguments
    fresh declarations accesses) : ∀ declaration ∈ declarations, declaration.id ∈ fresh ∧
      ∀ part ∈ declaration.parts.head?, ∀ id ∈ part.ids, id ∈ fresh := by
  induction splits with
  | nil => simp
  | cons _ _ _ _ _ _ ih =>
    intro other member
    rcases List.mem_cons.mp member with rfl | later
    · refine ⟨by simp [Term.initialization, Term.id], ?_⟩
      rintro _ ⟨⟩ id inside
      simp only [Term.ids_mk, List.flatMap_nil, List.mem_singleton] at inside
      simp [inside]
    · obtain ⟨own, declarator⟩ := ih other later
      refine ⟨List.mem_append_right _ own, fun part head id inside => ?_⟩
      exact List.mem_append_right _ (declarator part head id inside)

theorem constructor_ends (op : AggregateOp) {before : WalkState Nat} {site : Site} {id : NodeId}
    {ty : Ty} {arguments : List Term} {types : List Ty} (inBlock : site.blockDepth ≠ 0)
    (inside : id.index < before.space.tree.nodes.size)
    (found : ∀ argument ∈ arguments, (if argument.id = id then some (.aggregate op [] ty)
      else before.space.tree.nodes.get? argument.id) = some argument.node)
    (typed : arguments.map Term.ty? = types.map some) (has : ty.hasComponents = true)
    (all : ∀ ty ∈ types, ty.hasComponents = true) (fills : Fills ty.components (types.map Ty.components)) :
    ∃ fresh declarations accesses after,
      Ends (constructor site id op (arguments.map Term.id) ty) before () after ∧
      Scalarized id op ty arguments before after fresh declarations accesses := by
  obtain ⟨emptied, clears, cleared, size, atId⟩ :=
    setNode_ends before (.aggregate op [] ty) inside
  let opened : WalkState Nat := { before with space := { before.space with tree := emptied } }
  have standing : ∀ argument ∈ arguments, opened.space.tree.nodes.get? argument.id = some argument.node := by
    intro argument member
    have holds := found argument member
    split at holds
    · exact ‹argument.id = id› ▸ atId.trans holds
    · refine (cleared.kept _ (Arena.get?_eq_some_lt holds) ?_).trans holds
      exact fun same => ‹argument.id ≠ id› (List.mem_singleton.mp same)
  obtain ⟨fresh, declarations, accesses, between, splitting, done⟩ :=
    splitArguments_ends ty.target inBlock standing typed all fills
  have stays : id.index < between.space.tree.nodes.size := by
    have larger : emptied.nodes.size ≤ between.space.tree.nodes.size := done.appends.extension.size_le
    omega
  obtain ⟨tree, fillsIn, filled, _, final⟩ :=
    setNode_ends between (.aggregate op (accesses.map Term.id) ty) stays
  have old : ∀ handle ∈ fresh, handle ≠ id := by
    rintro _ member rfl
    have above : emptied.nodes.size ≤ _ := ((done.appends.fresh _).mp member).1
    omega
  refine ⟨fresh, declarations, accesses, { between with space := { between.space with tree } }, ?_,
    done.splits, ?_, final, ?_, ?_, done.rebuilt, done.table, done.size⟩
  · refine clears.bind ?_
    refine .bind (.work (.inspect (Ty.objectSize_eq_components has _))) ?_
    exact splitting.bind fillsIn
  · have whole := (cleared.trans (.of_appends done.appends)).trans filled
    simp only [List.append_nil, List.nil_append] at whole
    exact whole.weaken fun handle member => .inr (by simpa using member)
  · intro declaration member
    obtain ⟨own, declarator⟩ := done.splits.declarations_fresh declaration member
    have holds := done.declared declaration member
    refine ⟨(filled.kept _ ((done.appends.fresh _).mp own).2 ?_).trans holds.found, ?_⟩
    · exact fun same => old _ own (List.mem_singleton.mp same)
    · intro part head
      refine filled.of (holds.declarator part head) fun handle inner same => ?_
      exact old handle (declarator part head handle inner) (List.mem_singleton.mp same)
  · intro access member
    refine filled.of (done.built access member) fun handle inner same => ?_
    exact old handle (done.splits.accesses_fresh access member handle inner) (List.mem_singleton.mp same)

theorem Accesses.types {selected : List Part} (accesses : Accesses handle ty selected uses) :
    uses.map Term.ty? = (selected.map (Part.of (ty.withQualifier .temporary))).map some := by
  induction accesses with
  | nil => rfl
  | cons access _ ih => simp only [List.map_cons, access.ty?, ih]

theorem Accesses.of_mem {selected : List Part} (accesses : Accesses handle ty selected uses)
    (member : use ∈ uses) : ∃ part ∈ selected, Access handle (ty.withQualifier .temporary) part.path
      (part.of (ty.withQualifier .temporary)) use := by
  induction accesses with
  | nil => contradiction
  | cons access _ ih =>
    rcases List.mem_cons.mp member with rfl | later
    · exact ⟨_, List.mem_cons_self, access⟩
    · obtain ⟨part, inside, found⟩ := ih later
      exact ⟨part, List.mem_cons_of_mem _ inside, found⟩

theorem Part.nth_scalar {ty : Ty} {target : Target} (split : target.splits ty = true) (index : Nat) :
    (Part.of (ty.withQualifier .temporary) (Part.nth ty index)).isScalar = true := by
  obtain ⟨shape, precision, qualifier, array⟩ := ty
  cases array <;> cases shape <;> cases target <;>
    simp [Target.splits, Ty.isVector, Ty.isMatrix, Ty.isArray] at split
  all_goals rfl

theorem Target.scalar {ty : Ty} (target : Target) (scalar : ty.isScalar = true) :
    ty.components = 1 ∧ ty.hasComponents = true ∧ target.splits ty = false := by
  obtain ⟨shape, precision, qualifier, array⟩ := ty
  cases array <;> cases shape <;> cases target <;> simp [Ty.isScalar, Ty.isArray] at scalar
  all_goals exact ⟨rfl, rfl, rfl⟩

/-- The types of the accesses to one argument: what they add up to, and that they are not
taken apart again. -/
theorem taken_types {ty : Ty} {types : List Ty} (has : ty.hasComponents = true) (positive : 0 < needed)
    (same : types = (taken target needed ty).map (Part.of (ty.withQualifier .temporary))) :
    (∀ type ∈ types, type.hasComponents = true ∧ target.splits type = false) ∧
      (types.map Ty.components).sum ≤ ty.components ∧
      ∀ rest, Fills (needed - ty.components) rest → Fills needed (types.map Ty.components ++ rest) := by
  subst same
  unfold taken
  split
  · rename_i split
    have scalar : ∀ type ∈ ((List.range (min needed ty.components)).map (Part.nth ty)).map
        (Part.of (ty.withQualifier .temporary)), type.isScalar = true := by
      intro type member
      simp only [List.map_map, List.mem_map] at member
      obtain ⟨index, _, rfl⟩ := member
      exact Part.nth_scalar split _
    generalize types : ((List.range (min needed ty.components)).map (Part.nth ty)).map
        (Part.of (ty.withQualifier .temporary)) = scalars at scalar ⊢
    have count : scalars.length = min needed ty.components := by rw [← types]; simp
    have ones : ∀ size ∈ scalars.map Ty.components, size = 1 := by
      intro size member
      obtain ⟨type, inside, rfl⟩ := List.mem_map.mp member
      exact (target.scalar (scalar type inside)).1
    refine ⟨?_, ?_, ?_⟩
    · intro type member
      exact (target.scalar (scalar type member)).2
    · rw [List.eq_replicate_of_mem ones, List.sum_replicate_nat, List.length_map, count]
      omega
    · intro rest fills
      refine (fills_ones ones (by simp only [List.length_map]; omega)).mpr ?_
      rw [List.length_map, count]
      have same : needed - min needed ty.components = needed - ty.components := by omega
      rwa [same]
  · rename_i whole
    refine ⟨?_, ?_, ?_⟩
    · intro type member
      obtain rfl := List.mem_singleton.mp member
      refine ⟨has, ?_⟩
      cases target <;> exact eq_false_of_ne_true whole
    · simp [Part.of, Ty.components, Ty.withQualifier]
    · intro rest fills
      exact ⟨positive, fills⟩

theorem Splits.types {pool : Pool} (splits : Splits pool target needed first arguments fresh
    declarations accesses) {types : List Ty} (typed : arguments.map Term.ty? = types.map some) :
    ∃ uses : List Ty, accesses.map Term.ty? = uses.map some ∧
      (∀ type ∈ uses, type.hasComponents = true ∧ target.splits type = false) ∧
      (uses.map Ty.components).sum ≤ (types.map Ty.components).sum ∧
      (Fills needed (types.map Ty.components) → Fills needed (uses.map Ty.components)) := by
  induction splits generalizing types with
  | nil =>
    obtain rfl : types = [] := by simpa using typed
    exact ⟨[], rfl, by simp, Nat.le_refl _, id⟩
  | cons typed' has positive temporary selected rest ih =>
    obtain _ | ⟨type, types⟩ := types
    · simp at typed
    · simp only [List.map_cons, List.cons.injEq] at typed
      obtain ⟨first, typed⟩ := typed
      obtain rfl := Option.some.inj (first.symm.trans typed')
      obtain ⟨others, sameOthers, plainOthers, sumOthers, fillOthers⟩ := ih typed
      obtain ⟨plain, sum, fill⟩ := taken_types has positive rfl
      have same := congrArg₂ (· ++ ·) selected.types sameOthers
      simp only [← List.map_append] at same
      refine ⟨_, same, ?_, ?_, ?_⟩
      · intro type member
        rcases List.mem_append.mp member with own | later
        · exact plain type own
        · exact plainOthers type later
      · simp only [List.map_append, List.sum_append, List.map_cons, List.sum_cons] at sum sumOthers ⊢
        omega
      · rintro ⟨_, fills⟩
        rw [List.map_append]
        exact fill _ (fillOthers fills)

end Scalarize

/-- A constructor that mixes vectors with matrices is no conversion. -/
theorem Arguments.fills_of_mixes {pool : Pool} {id : NodeId} {ty : Ty} {arguments : Arguments}
    (accepted : checkConstruct pool id ty arguments = .ok ())
    (mixed : ty.mixes (arguments.map Prod.snd) = true) :
    (∀ argument ∈ arguments, argument.2.hasComponents = true) ∧ arguments.sizes.sum < Count.limit ∧
      arguments ≠ [] ∧ Fills ty.components arguments.sizes := by
  obtain ⟨all, bound, rule⟩ := (checkConstruct_components (Ty.hasComponents_of_mixes mixed)).mp accepted
  refine ⟨all, bound, rule.resolve_left ?_⟩
  rintro ⟨single, rfl, converts⟩
  simp only [Ty.mixes, Ty.target, List.map_cons, List.map_nil, List.any_cons, List.any_nil, Bool.or_false,
    Bool.and_eq_true] at mixed
  rcases converts with scalar | ⟨matrix, matrixTy⟩
  · rw [(Scalarize.Target.scalar _ scalar).2.2] at mixed
    cases mixed.2
  · obtain ⟨shape, precision, qualifier, array⟩ := ty
    obtain ⟨argument, shape', precision', qualifier', array'⟩ := single
    cases shape <;> cases array <;> simp [Ty.isMatrix, Ty.isArray] at matrixTy
    cases shape' <;> cases array' <;> simp [Ty.isMatrix, Ty.isArray] at matrix
    simp [Ty.isVector, Ty.isArray, Scalarize.Target.splits] at mixed

namespace Scalarize

/-- The new arguments of a scalarized constructor: they are accepted in the place of the old ones
and do not mix vectors with matrices. -/
theorem Splits.reconstructs {pool second : Pool} {id : NodeId} {ty : Ty} {arguments : Arguments}
    {pieces : List Term} (splits : Splits pool ty.target ty.components first pieces fresh declarations accesses)
    (typed : pieces.map Term.ty? = (arguments.map Prod.snd).map some)
    (accepted : checkConstruct second id ty arguments = .ok ())
    (mixed : ty.mixes (arguments.map Prod.snd) = true) :
    ∃ uses : Arguments, uses.map Prod.fst = accesses.map Term.id ∧
      (uses.map Prod.snd).map some = accesses.map Term.ty? ∧
      checkConstruct pool id ty uses = .ok () ∧ ty.mixes (uses.map Prod.snd) = false := by
  have has := Ty.hasComponents_of_mixes mixed
  obtain ⟨all, bound, some, fills⟩ := Arguments.fills_of_mixes accepted mixed
  obtain ⟨types, same, plain, sum, fill⟩ := splits.types typed
  have length : (accesses.map Term.id).length = types.length := by
    simpa using congrArg List.length same
  have firsts := List.map_fst_zip (Nat.le_of_eq length)
  have seconds := List.map_snd_zip (Nat.le_of_eq length.symm)
  refine ⟨(accesses.map Term.id).zip types, firsts, ?_, ?_, ?_⟩
  · rw [seconds, same]
  · refine (checkConstruct_components has).mpr ⟨?_, ?_, .inr ⟨?_, ?_⟩⟩
    · intro use member
      exact (plain use.2 (seconds ▸ List.mem_map_of_mem member)).1
    · rw [Arguments.sizes_eq, seconds]
      rw [Arguments.sizes_eq] at bound
      omega
    · intro none
      rw [Arguments.sizes_eq] at fills
      have needed := fill fills
      rw [← seconds, none] at needed
      exact absurd needed (Nat.pos_iff_ne_zero.mp (Ty.components_bounds has).1)
    · rw [Arguments.sizes_eq, seconds]
      rw [Arguments.sizes_eq] at fills
      exact fill fills
  · rw [seconds, Ty.mixes, Bool.and_eq_false_iff]
    refine .inr (List.any_eq_false.mpr fun type member => ?_)
    rw [(plain type member).2]
    exact Bool.false_ne_true

end Scalarize
end ShaderTree
