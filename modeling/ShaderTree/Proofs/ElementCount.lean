import ShaderTree.Proofs.SameValue

/-! How many components the arguments of a scalarized constructor bring. Arguments that
are taken apart bring no more than what is still needed, but one that is used as a whole
brings all that it has. The new arguments bring what the constructor needs, except where a
matrix is built from arguments that end in another matrix: they bring what the old ones
bring, which may be more. -/
namespace ShaderTree.Scalarize

/-- The number of components that arguments of these types bring to a constructor that needs
`needed` more, as far as they are taken. -/
def brought (target : Target) : (needed : Nat) → List Ty → Nat
  | _, [] => 0
  | needed, ty :: rest =>
    (if target.splits ty then min needed ty.components else ty.components)
      + brought target (needed - ty.components) rest

theorem taken_sum {ty : Ty} (target : Target) (needed : Nat) :
    (((taken target needed ty).map (Part.of (ty.withQualifier .temporary))).map Ty.components).sum =
      if target.splits ty then min needed ty.components else ty.components := by
  unfold taken
  by_cases split : target.splits ty = true
  · simp only [split, if_true, List.map_map]
    have ones : ∀ size ∈ (List.range (min needed ty.components)).map
        (Ty.components ∘ Part.of (ty.withQualifier .temporary) ∘ Part.nth ty), size = 1 := by
      intro size member
      obtain ⟨index, _, rfl⟩ := List.mem_map.mp member
      exact (target.scalar (Part.nth_scalar split index)).1
    rw [List.eq_replicate_of_mem ones, List.sum_replicate_nat, List.length_map,
      List.length_range, Nat.mul_one]
  · simp [split, Part.of, Ty.components, Ty.withQualifier]

theorem Splits.sum {pool : Pool} (splits : Splits pool target needed first arguments fresh declarations accesses)
    {types uses : List Ty} (typed : arguments.map Term.ty? = types.map some)
    (used : accesses.map Term.ty? = uses.map some) : (uses.map Ty.components).sum = brought target needed types := by
  induction splits generalizing types uses with
  | nil =>
    obtain rfl : types = [] := by simpa using typed
    obtain rfl : uses = [] := by simpa using used
    rfl
  | cons known _ _ _ selected _ ih =>
    obtain _ | ⟨type, types⟩ := types
    · simp at typed
    · simp only [List.map_cons, List.cons.injEq] at typed
      obtain ⟨head, typed⟩ := typed
      obtain rfl := Option.some.inj (head.symm.trans known)
      rw [List.map_append] at used
      obtain ⟨own, others, rfl, here, later⟩ := List.map_eq_append_iff.mp used.symm
      have same : own = (taken target _ type).map (Part.of (type.withQualifier .temporary)) :=
        List.map_injective_iff.mpr (fun _ _ => Option.some.inj) (here.trans selected.types)
      rw [List.map_append, List.sum_append, same, taken_sum, ih typed later.symm]
      rfl

/-- Only the last argument may have more than what is still needed, and it brings that only as a
whole. -/
theorem brought_eq {target : Target} {needed : Nat} {types : List Ty} (fills : Fills needed (types.map Ty.components)) :
    brought target needed types =
      if types.getLast?.all target.splits then needed else (types.map Ty.components).sum := by
  induction types generalizing needed with
  | nil =>
    obtain rfl : needed = 0 := fills
    rfl
  | cons ty rest ih =>
    obtain ⟨positive, fills⟩ := fills
    have others := ih fills
    cases rest with
    | nil =>
      have enough : needed - ty.components = 0 := fills
      simp only [brought, List.getLast?_singleton, Option.all_some, List.map_cons, List.map_nil, List.sum_cons,
        List.sum_nil]
      split <;> omega
    | cons next rest =>
      obtain ⟨more, _⟩ := fills
      have own : (if target.splits ty then min needed ty.components else ty.components) = ty.components := by
        split <;> omega
      have total : ((ty :: next :: rest).map Ty.components).sum =
          ty.components + ((next :: rest).map Ty.components).sum := List.sum_cons
      rw [brought, own, others, List.getLast?_cons_cons, total]
      split <;> omega

theorem components_le_of_vector {ty matrix : Ty} (vector : ty.isVector = true) (isMatrix : matrix.isMatrix = true) :
    ty.components ≤ matrix.components := by
  obtain ⟨shape, precision, qualifier, array⟩ := ty
  obtain ⟨shape', precision', qualifier', array'⟩ := matrix
  cases shape <;> simp [Ty.isVector] at vector
  cases shape' <;> simp [Ty.isMatrix] at isMatrix
  rename_i size columns rows
  simp only [Ty.components]
  cases size <;> cases columns <;> cases rows <;> decide

theorem last_of_vector {ty : Ty} {types : List Ty} (vector : ty.isVector = true)
    (fills : Fills ty.components (types.map Ty.components)) (mixed : ty.mixes types = true) :
    ∃ matrix, types.getLast? = some matrix ∧ matrix.isMatrix = true := by
  simp only [Ty.mixes, Ty.target, vector, if_true, Bool.true_or, Bool.true_and, List.any_eq_true] at mixed
  obtain ⟨matrix, member, isMatrix⟩ := mixed
  obtain ⟨front, back, rfl⟩ := List.mem_iff_append.mp member
  cases back with
  | nil => exact ⟨matrix, by simp, isMatrix⟩
  | cons next back =>
    have large := components_le_of_vector vector isMatrix
    have turn := (fills_iff.mp fills).2 ((front ++ [matrix]).map Ty.components) next.components
      (back.map Ty.components) (by simp)
    simp only [List.map_append, List.map_cons, List.map_nil, List.sum_append, List.sum_cons, List.sum_nil] at turn
    omega

theorem sum_of_last_scalar {needed : Nat} {types : List Ty} {last : Ty} (has : ∀ ty ∈ types, ty.hasComponents = true)
    (fills : Fills needed (types.map Ty.components)) (final : types.getLast? = some last)
    (scalar : last.isScalar = true) : (types.map Ty.components).sum = needed := by
  obtain ⟨front, rfl⟩ := List.getLast?_eq_some_iff.mp final
  have positive : ∀ size ∈ front.map Ty.components, 0 < size := by
    intro size member
    obtain ⟨ty, inside, rfl⟩ := List.mem_map.mp member
    exact (Ty.components_bounds (has ty (List.mem_append_left _ inside))).1
  have one : last.components = 1 := (Target.scalar .vectors scalar).1
  rw [List.map_append] at fills ⊢
  have turns := (Arguments.fills_snoc positive).mp fills
  simp only [List.map_cons, List.map_nil, List.sum_append, List.sum_cons, List.sum_nil]
  omega

theorem brought_target {ty : Ty} {types : List Ty} (has : ∀ ty ∈ types, ty.hasComponents = true)
    (fills : Fills ty.components (types.map Ty.components)) (mixed : ty.mixes types = true) :
    brought ty.target ty.components types =
      if ty.isMatrix && types.getLast?.any Ty.isMatrix then (types.map Ty.components).sum else ty.components := by
  rw [brought_eq fills]
  cases vector : ty.isVector with
  | true =>
    obtain ⟨matrix, final, isMatrix⟩ := last_of_vector vector fills mixed
    have other : ty.isMatrix = false := by
      obtain ⟨shape, precision, qualifier, array⟩ := ty
      cases shape <;> simp [Ty.isVector] at vector
      simp [Ty.isMatrix]
    simp [Ty.target, vector, final, Target.splits, isMatrix, other]
  | false =>
    have matrix : ty.isMatrix = true := by
      have plain := (Ty.plain_of_mixes mixed).2
      simpa [vector] using plain
    cases final : types.getLast? with
    | none =>
      obtain rfl := List.getLast?_eq_none_iff.mp final
      simp [Ty.mixes] at mixed
    | some last =>
      have member : last ∈ types := List.mem_of_getLast? final
      have turn := sum_of_last_scalar has fills final
      have target : ty.target = .vectors := by simp [Ty.target, vector]
      simp only [target, matrix, Bool.true_and, Option.all_some, Option.any_some, Target.splits]
      obtain ⟨plain, ⟨kind, shape⟩ | ⟨kind, size, shape⟩ | ⟨columns, rows, shape⟩⟩ :=
        Ty.hasComponents_cases (has last member)
      · have single := turn (by simp [Ty.isScalar, Ty.isArray, plain, shape])
        simp [Ty.isMatrix, shape, single]
      · simp [Ty.isVector, Ty.isMatrix, Ty.isArray, plain, shape]
      · simp [Ty.isVector, Ty.isMatrix, Ty.isArray, plain, shape]

/-- Scalarizing an accepted constructor leaves it with as many components as it needs, or, where it
builds a matrix and its last argument is a matrix, with as many as it was given. -/
theorem constructor_element_count {before : WalkState Nat} {site : Site} {id : NodeId} {ty : Ty}
    {arguments : Arguments} {parent : Option NodeId} (inBlock : site.blockDepth ≠ 0)
    (found : before.space.tree.read id = .ok (.aggregate .construct (arguments.map Prod.fst) ty))
    (typed : arguments.Typed before.space.tree)
    (accepted : checkConstruct before.space.table.pool id ty arguments = .ok ())
    (matched : Pattern.selects { mixedConstructor := true } before.space.tree
      before.space.table.pool id parent = .ok true) :
    ∃ (needed given : Nat) (uses : Arguments) (after : WalkState Nat),
      ty.objectSize before.space.table.pool = .ok needed ∧
      arguments.componentCount before.space.table.pool = .ok given ∧ needed ≤ given ∧
      (constructor site id .construct (arguments.map Prod.fst) ty).run.run before = (.ok (), after) ∧
      after.space.tree.read id = .ok (.aggregate .construct (uses.map Prod.fst) ty) ∧
      uses.Typed after.space.tree ∧
      uses.componentCount after.space.table.pool =
        .ok (if ty.isMatrix && arguments.getLast?.any (·.2.isMatrix) then given else needed) := by
  have node := Arena.read_eq_ok.mp found
  have mixed : ty.mixes (arguments.map Prod.snd) = true :=
    Except.ok.inj ((Pattern.selects_construct typed node _ parent).symm.trans matched)
  have has := Ty.hasComponents_of_mixes mixed
  obtain ⟨pieces, ids, types, standing⟩ := exists_pieces typed (Tree.ty?_eq_ok node)
  obtain ⟨all, bound, _, fills⟩ := Arguments.fills_of_mixes accepted mixed
  have plain : ∀ type ∈ arguments.map Prod.snd, type.hasComponents = true := by
    intro type member
    obtain ⟨argument, inside, rfl⟩ := List.mem_map.mp member
    exact all argument inside
  rw [Arguments.sizes_eq] at fills
  obtain ⟨fresh, declarations, accesses, after, done, scalarized⟩ :=
    constructor_ends .construct inBlock (Arena.get?_eq_some_lt node) standing types has plain fills
  obtain ⟨uses, firsts, seconds, accepts, _⟩ := scalarized.splits.reconstructs types accepted mixed
  obtain ⟨allUses, small, _⟩ := (checkConstruct_components has).mp accepts
  have total : uses.sizes.sum =
      if ty.isMatrix && arguments.getLast?.any (·.2.isMatrix) then arguments.sizes.sum else ty.components := by
    rw [Arguments.sizes_eq, scalarized.splits.sum types seconds.symm, brought_target plain fills mixed,
      List.getLast?_map, Option.any_map, ← Arguments.sizes_eq]
  have root := scalarized.found
  rw [← firsts] at root
  rw [ids] at done
  refine ⟨ty.components, arguments.sizes.sum, uses, after, Ty.objectSize_eq_components has _,
    Arguments.componentCount_eq_ok.mpr ⟨all, rfl, bound⟩, ?_, done, Arena.read_eq_ok.mpr root,
    Arguments.typed_of_pieces firsts seconds fun access member => (scalarized.built access member).found, ?_⟩
  · rw [Arguments.sizes_eq]
    exact (fills_iff.mp fills).1
  · exact Arguments.componentCount_eq_ok.mpr ⟨allUses, total.symm, total ▸ small⟩

/-- A statement `mat3(v, m)` for a vector `v` of two components and a 3-by-3 matrix `m`. -/
def mixedMatrix : Workspace :=
  let vector : Ty := .vector .float .two
  let matrix : Ty := .matrix .three .three
  let symbol (name : String) (number : Nat) (ty : Ty) : Symbol :=
    { rawName := name, id := ⟨number⟩, origin := .userDefined, kind := .var { ty } }
  { tree :=
      { nodes := ⟨#[.block [⟨3⟩], .symbol (.pool ⟨0⟩) vector, .symbol (.pool ⟨1⟩) matrix,
          .aggregate .construct [⟨1⟩, ⟨2⟩] matrix]⟩
        root := ⟨0⟩ }
    table :=
      { pool := ⟨#[symbol "v" 96 vector, symbol "m" 97 matrix]⟩
        builtIns := {}
        profile := {} } }

/-- Nine components are needed, and eleven are brought. -/
theorem constructor_element_count_mat3 : ∃ (uses : Arguments) (after : WalkState Nat),
    (constructor { ancestors := [⟨0⟩], blockDepth := 1 } ⟨3⟩ .construct [⟨1⟩, ⟨2⟩]
      (.matrix .three .three)).run.run { space := mixedMatrix, own := 0 } = (.ok (), after) ∧
    after.space.tree.read ⟨3⟩ = .ok (.aggregate .construct (uses.map Prod.fst) (.matrix .three .three)) ∧
    (Ty.matrix .three .three).objectSize mixedMatrix.table.pool = .ok 9 ∧
    uses.componentCount after.space.table.pool = .ok 11 := by
  have accepted : checkConstruct mixedMatrix.table.pool ⟨3⟩ (.matrix .three .three)
      [(⟨1⟩, .vector .float .two), (⟨2⟩, .matrix .three .three)] = .ok () := rfl
  have typed : Arguments.Typed mixedMatrix.tree [(⟨1⟩, .vector .float .two), (⟨2⟩, .matrix .three .three)] := by
    intro argument member
    revert argument
    decide
  obtain ⟨needed, given, uses, after, size, count, _, ended, root, _, total⟩ :=
    @constructor_element_count { space := mixedMatrix, own := 0 } { ancestors := [⟨0⟩], blockDepth := 1 } ⟨3⟩
      (.matrix .three .three) [(⟨1⟩, .vector .float .two), (⟨2⟩, .matrix .three .three)] none (by decide) rfl typed
      accepted rfl
  obtain rfl : given = 11 := (Except.ok.inj count).symm
  exact ⟨uses, after, ended, root, rfl, total⟩

end ShaderTree.Scalarize
