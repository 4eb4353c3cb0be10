import ShaderTree.Proofs.Scalarizes
import ShaderTree.Proofs.WellFormed

/-! What stays right when the pool grows. All checks look symbols up in the pool, and what
they find stays there, so a piece that is well formed over one pool is well formed over
every pool that continues it. -/
namespace ShaderTree

theorem Count.foldlM_mono {first second : α → Except Fault Nat} {items : List α}
    (same : ∀ item ∈ items, ∀ count, first item = .ok count → second item = .ok count)
    (counted : items.foldlM (fun total item => do Count.add total (← first item)) start = .ok result) :
    items.foldlM (fun total item => do Count.add total (← second item)) start = .ok result := by
  induction items generalizing start with
  | nil => exact counted
  | cons item items ih =>
    rw [List.foldlM_cons, bind_eq_ok] at counted ⊢
    obtain ⟨total, added, rest⟩ := counted
    obtain ⟨count, found, sum⟩ := bind_eq_ok.mp added
    refine ⟨total, bind_eq_ok.mpr ⟨count, same item List.mem_cons_self count found, sum⟩, ?_⟩
    exact ih (fun item later => same item (List.mem_cons_of_mem _ later)) rest

section
variable {first second : Pool} (extension : first.Extends second)

include extension

theorem SymbolRef.resolve_mono {ref : SymbolRef} (resolved : ref.resolve first = .ok symbol) :
    ref.resolve second = .ok symbol := by
  cases ref with
  | builtIn _ => exact resolved
  | pool handle => exact Arena.read_eq_ok.mpr (extension _ _ (Arena.read_eq_ok.mp resolved))

theorem Ty.countWithin_mono {low high : Nat} {ty : Ty} (deeper : low ≤ high)
    (counted : ty.countWithin first low = .ok size) : ty.countWithin second high = .ok size := by
  induction low generalizing high ty size with
  | zero => cases counted
  | succ low ih =>
    obtain _ | high := high
    · omega
    have fields : ∀ symbol : Symbol, ∀ sum, symbol.fields.foldlM (fun total field => do
          Count.add total (← countWithin first low field.ty)) 0 = .ok sum →
        symbol.fields.foldlM (fun total field => do
          Count.add total (← countWithin second high field.ty)) 0 = .ok sum :=
      fun symbol sum => Count.foldlM_mono fun field _ count => ih (by omega)
    unfold countWithin at counted ⊢
    cases shape : ty.shape with
    | struct ref | block ref =>
      simp only [shape, bind_eq_ok] at counted ⊢
      obtain ⟨symbol, resolved, sum, added, product⟩ := counted
      exact ⟨symbol, SymbolRef.resolve_mono extension resolved, sum, fields symbol sum added, product⟩
    | _ =>
      simp only [shape] at counted ⊢
      exact counted

theorem Ty.objectSize_mono {ty : Ty} (counted : ty.objectSize first = .ok size) :
    ty.objectSize second = .ok size := by
  refine Ty.countWithin_mono extension ?_ counted
  have larger := extension.size_le
  unfold Arena.nesting
  omega

theorem checkConstruct_mono {arguments : Arguments} {id : NodeId} {ty : Ty}
    (accepted : checkConstruct first id ty arguments = .ok ()) :
    checkConstruct second id ty arguments = .ok () := by
  by_cases has : ty.hasComponents = true
  · rw [checkConstruct_components has] at accepted ⊢
    exact accepted
  · unfold checkConstruct at accepted ⊢
    cases array : ty.array with
    | some size =>
      simp only [array] at accepted ⊢
      exact accepted
    | none =>
      cases shape : ty.shape with
      | struct ref =>
        simp only [array, shape, bind_eq_ok] at accepted ⊢
        obtain ⟨symbol, resolved, rest⟩ := accepted
        refine ⟨symbol, ?_, rest⟩
        exact Rejection.lift_eq_ok.mpr (SymbolRef.resolve_mono extension (Rejection.lift_eq_ok.mp resolved))
      | scalar | vector | matrix =>
        simp [Ty.hasComponents, Ty.isScalar, Ty.isVector, Ty.isMatrix, Ty.isArray, array, shape] at has
      | _ =>
        simp only [array, shape] at accepted
        cases accepted

end

section
variable {first second : SymbolTable} (extension : first.pool.Extends second.pool)

include extension

theorem SymbolTable.resolve_mono {ref : SymbolRef} (resolved : first.resolve ref = .ok symbol) :
    second.resolve ref = .ok symbol := SymbolRef.resolve_mono extension resolved

theorem SymbolTable.function?_mono {ref : SymbolRef} (found : first.function? ref = some function) :
    second.function? ref = some function := by
  unfold function? at found ⊢
  cases resolved : first.resolve ref with
  | error fault => simp [resolved, Except.toOption] at found
  | ok symbol =>
    rw [resolved] at found
    rw [resolve_mono extension resolved]
    exact found

theorem SymbolTable.variableType?_mono {ref : SymbolRef} (found : first.variableType? ref = some ty) :
    second.variableType? ref = some ty := by
  unfold variableType? at found ⊢
  cases resolved : first.resolve ref with
  | error fault => simp [resolved, Except.toOption] at found
  | ok symbol =>
    rw [resolved] at found
    rw [resolve_mono extension resolved]
    exact found

theorem SymbolTable.isSome_function?_mono {ref : SymbolRef} (known : (first.function? ref).isSome = true) :
    (second.function? ref).isSome = true := by
  obtain ⟨function, found⟩ := Option.isSome_iff_exists.mp known
  rw [function?_mono extension found]
  rfl

theorem SymbolTable.Writable.mono {ref : SymbolRef} (writable : first.Writable ref) : second.Writable ref := by
  obtain ⟨target, resolved, free⟩ := writable
  exact ⟨target, resolve_mono extension resolved, free⟩

theorem SymbolTable.Takes.mono {callee : SymbolRef} {types : List Ty} {ty : Ty}
    (takes : first.Takes callee types ty) : second.Takes callee types ty := by
  obtain ⟨function, found, length, each, returned⟩ := takes
  refine ⟨function, function?_mono extension found, length, ?_, returned⟩
  intro parameter type member
  obtain ⟨expected, known, shape⟩ := each parameter type member
  exact ⟨expected, variableType?_mono extension known, shape⟩

theorem Node.Fits.mono {checks : Checks} {returns : Option Ty} {faces : List Face} {id : NodeId} {node : Node}
    (fits : node.Fits checks first returns faces id) : node.Fits checks second returns faces id := by
  cases node with
  | symbol ref ty =>
    obtain ⟨expected, known, shape⟩ := fits
    exact ⟨expected, SymbolTable.variableType?_mono extension known, shape⟩
  | constant values ty =>
    rcases fits with struct | ⟨size, counted, agrees⟩
    · exact .inl struct
    · exact .inr ⟨size, Ty.objectSize_mono extension counted, agrees⟩
  | aggregate op arguments ty =>
    cases op with
    | construct =>
      obtain ⟨types, known, accepted⟩ := fits
      exact ⟨types, known, fun wanted => checkConstruct_mono extension (accepted wanted)⟩
    | call function =>
      obtain ⟨types, known, known', takes⟩ := fits
      refine ⟨types, known, fun wanted => ?_, fun wanted => (takes wanted).mono extension⟩
      exact SymbolTable.isSome_function?_mono extension (known' wanted)
  | prototype function => exact SymbolTable.isSome_function?_mono extension fits
  | definition function inner => exact ⟨fits.1, SymbolTable.isSome_function?_mono extension fits.2⟩
  | binary | unary | ternary | declaration | block | ifElse | loop | branch => exact fits

end

def Node.Defines (table : SymbolTable) (node : Node) : Prop :=
  ∀ function inner, node = .definition function inner → (table.function? function).isSome = true

theorem Node.Fits.defines {checks : Checks} {table : SymbolTable} {returns : Option Ty} {faces : List Face}
    {id : NodeId} {node : Node} (fits : node.Fits checks table returns faces id) : node.Defines table := by
  rintro function inner rfl
  exact fits.2

section
variable {first second : SymbolTable} (extension : first.pool.Extends second.pool) {node : Node}
  (defines : node.Defines first)

include extension defines

theorem Node.inner_mono (returns : Option Ty) : node.inner second returns = node.inner first returns := by
  cases node with
  | definition function inner =>
    obtain ⟨target, found⟩ := Option.isSome_iff_exists.mp (defines function inner rfl)
    simp only [Node.inner, found, SymbolTable.function?_mono extension found]
  | _ => rfl

theorem Node.names_mono : node.names second = node.names first := by
  cases node with
  | definition function inner =>
    obtain ⟨target, found⟩ := Option.isSome_iff_exists.mp (defines function inner rfl)
    simp only [Node.names, found, SymbolTable.function?_mono extension found]
  | _ => rfl

theorem Node.scope_mono (visible : List SymbolRef) (front : List Term) :
    node.scope second visible front = node.scope first visible front := by
  simp only [Node.scope, Node.names_mono extension defines]

end

section
variable {checks : Checks} {first second : SymbolTable} {returns : Option Ty} {role : Role} {term : Term}

theorem WellFormed.mono (right : WellFormed checks first returns role term)
    (extension : first.pool.Extends second.pool) : WellFormed checks second returns role term := by
  induction right with
  | mk suits fits writable below ih =>
    refine .mk suits (fits.mono extension) ?_ ?_
    · intro writes part member symbol root
      exact (writable writes part member symbol root).mono extension
    · intro role part member
      rw [Node.inner_mono extension fits.defines]
      exact ih role part member

/-- Scopes stay what they are. -/
theorem Scoped.mono_iff (extension : first.pool.Extends second.pool)
    (defines : term.All fun part => part.node.Defines first) {visible : List SymbolRef} :
    Scoped second visible term ↔ Scoped first visible term := by
  induction defines generalizing visible with
  | @mk id node parts own rest ih =>
    have same : ∀ front, node.scope second visible front = node.scope first visible front :=
      Node.scope_mono extension own visible
    constructor
    · rintro ⟨use, below⟩
      refine .mk use fun front part back split inner => ?_
      rw [← same]
      exact (ih part (split ▸ List.mem_append_right _ List.mem_cons_self)).mp (below front part back split inner)
    · rintro ⟨use, below⟩
      refine .mk use fun front part back split inner => ?_
      rw [same]
      exact (ih part (split ▸ List.mem_append_right _ List.mem_cons_self)).mpr (below front part back split inner)

end
end ShaderTree
