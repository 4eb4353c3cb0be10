import ShaderTree.Proofs.Reachability

/-! Writes to variables: assignments, increments and decrements, and arguments for parameters that
hand a value out. In a valid program those of the operators spare the read-only built-ins. Arguments
are not looked at, so that they are the only way to write one. -/
namespace ShaderTree

namespace Tree

/-- The variable at the root of an l-value. Index operators are followed to their left operand. -/
inductive Root (tree : Tree) : NodeId → SymbolRef → Prop where
  | use {id : NodeId} {symbol : SymbolRef} {ty : Ty} (found : tree.nodes.get? id = some (.symbol symbol ty)) :
      Root tree id symbol
  | index {id left right : NodeId} {op : BinaryOp} {ty : Ty} {symbol : SymbolRef}
      (found : tree.nodes.get? id = some (.binary op left right ty)) (index : op.isIndex = true)
      (below : Root tree left symbol) : Root tree id symbol

inductive Modifies (tree : Tree) (id target : NodeId) : Prop where
  | assignment {op : BinaryOp} {right : NodeId} {ty : Ty}
      (found : tree.nodes.get? id = some (.binary op target right ty)) (assigns : op.isAssignment = true)
  | step {op : UnaryOp} {ty : Ty} (found : tree.nodes.get? id = some (.unary op target ty))
      (mutates : op.isMutating = true)

/-- The call at `id` has the l-value at `target` as the argument for an `out` or `inout` parameter. -/
def HandsOut (tree : Tree) (table : SymbolTable) (id target : NodeId) : Prop :=
  ∃ callee arguments ty function parameter expected,
    tree.nodes.get? id = some (.aggregate (.call callee) arguments ty) ∧
    table.function? callee = some function ∧ (parameter, target) ∈ function.parameters.zip arguments ∧
    table.variableType? parameter = some expected ∧
    (expected.qualifier = .paramOut ∨ expected.qualifier = .paramInOut)

def WritesTo (tree : Tree) (table : SymbolTable) (id target : NodeId) : Prop :=
  tree.Modifies id target ∨ tree.HandsOut table id target

end Tree

def SymbolTable.IsReadOnly (table : SymbolTable) (symbol : SymbolRef) : Prop :=
  ∃ target var, table.resolve symbol = .ok target ∧ target.id.isBuiltIn = true ∧
    target.asVariable? = some var ∧ var.ty.qualifier.isReadOnly = true

theorem SymbolTable.Writable.not_isReadOnly {table : SymbolTable} {symbol : SymbolRef}
    (writable : table.Writable symbol) : ¬ table.IsReadOnly symbol := by
  rintro ⟨target, var, resolved, builtIn, isVar, readOnly⟩
  obtain ⟨other, same, spared⟩ := writable
  obtain rfl := Except.ok.inj (same.symm.trans resolved)
  simp [builtIn, isVar, readOnly] at spared

variable {tree : Tree} {table : SymbolTable} {checks : Checks} {id target : NodeId} {symbol : SymbolRef}

theorem Tree.Root.root? (root : tree.Root id symbol) {term : Term} (stands : term.Of tree) (same : term.id = id) :
    term.root? = some symbol := by
  induction root generalizing term with
  | use found =>
    subst same
    obtain ⟨id, node, parts⟩ := term
    obtain rfl : node = _ := Option.some.inj (stands.found.symm.trans found)
    rfl
  | index found index _ ih =>
    subst same
    obtain ⟨id, node, parts⟩ := term
    obtain rfl : node = _ := Option.some.inj (stands.found.symm.trans found)
    obtain _ | ⟨left, rest⟩ := parts
    · cases stands.children
    have below := ih (stands.parts List.mem_cons_self) (List.cons.inj stands.children).1.symm
    simp only [Term.root?, index, if_true, below]

theorem Tree.Modifies.writes (modifies : tree.Modifies id target) :
    ∃ node, tree.nodes.get? id = some node ∧ node.writes = true ∧ node.children.head? = some target := by
  cases modifies with
  | assignment found assigns => exact ⟨_, found, assigns, rfl⟩
  | step found mutates => exact ⟨_, found, mutates, rfl⟩

/-- No operator of a valid program writes to a read-only built-in. -/
theorem Valid.spares {term : Term} (valid : Valid checks table term) (stands : term.Of tree)
    (root : term.id = tree.root) (reached : tree.Reachable id) (modifies : tree.Modifies id target)
    (below : tree.Root target symbol) : ¬ table.IsReadOnly symbol := by
  obtain ⟨_, _, piece, rfl, standing, right⟩ := valid.piece stands ((stands.reachable_iff root).mp reached)
  obtain ⟨node, found, writes, first⟩ := modifies.writes
  obtain rfl : piece.node = node := Option.some.inj (standing.found.symm.trans found)
  rw [standing.children, List.head?_map, Option.map_eq_some_iff] at first
  obtain ⟨part, first, same⟩ := first
  have known := below.root? (standing.parts (List.mem_of_mem_head? first)) same
  cases right with
  | mk _ _ writable _ => exact (writable writes part first symbol known).not_isReadOnly

/-- What writes to a read-only built-in in a valid program is a call that has it as the argument for a
parameter that hands a value out. -/
theorem Tree.validate_writes_iff (accepted : tree.validate table checks = .ok ()) (reached : tree.Reachable id)
    (root : tree.Root target symbol) (readOnly : table.IsReadOnly symbol) :
    tree.WritesTo table id target ↔ tree.HandsOut table id target := by
  obtain ⟨term, top, stands, valid⟩ := validate_iff.mp accepted
  constructor
  · rintro (modifies | handsOut)
    · exact absurd readOnly (valid.spares stands top reached modifies root)
    · exact handsOut
  · exact .inr

theorem BuiltIn.fragCoord_inside : 4 < 95 := by decide

def BuiltIn.fragCoord : BuiltIn := ⟨⟨4, fragCoord_inside⟩⟩

/-- The program `f(gl_FragCoord);`. -/
def Tree.handingOut : Tree :=
  { nodes :=
      ⟨#[.block [⟨1⟩], .aggregate (.call (.pool ⟨1⟩)) [⟨2⟩] .void,
        .symbol (.builtIn .fragCoord) (.vector .float .four)]⟩
    root := ⟨0⟩ }

def SymbolTable.outParameter : SymbolTable :=
  { pool :=
      ⟨#[{ rawName := "o", id := ⟨96⟩, origin := .userDefined,
           kind := .var { ty := (Ty.vector .float .four).withQualifier .paramOut } },
        { rawName := "f", id := ⟨97⟩, origin := .userDefined,
          kind := .function { signature := .growing [⟨0⟩] none, returnType := .void } }]⟩
    builtIns := {}
    profile := {} }

/-- The program is valid, and it writes to `gl_FragCoord`. -/
theorem Tree.validate_writes_iff_handingOut :
    handingOut.validate .outParameter .all = .ok () ∧ handingOut.Reachable ⟨1⟩ ∧
      handingOut.Root ⟨2⟩ (.builtIn .fragCoord) ∧ SymbolTable.outParameter.IsReadOnly (.builtIn .fragCoord) ∧
      handingOut.WritesTo .outParameter ⟨1⟩ ⟨2⟩ := by
  have accepted : handingOut.validate .outParameter .all = .ok () := rfl
  have reached : handingOut.Reachable ⟨1⟩ := .single ⟨.block [⟨1⟩], rfl, by simp [Node.children]⟩
  have root : handingOut.Root ⟨2⟩ (.builtIn .fragCoord) := .use rfl
  have readOnly : SymbolTable.outParameter.IsReadOnly (.builtIn .fragCoord) := ⟨_, _, rfl, rfl, rfl, rfl⟩
  refine ⟨accepted, reached, root, readOnly, (validate_writes_iff accepted reached root readOnly).mpr ?_⟩
  exact ⟨.pool ⟨1⟩, [⟨2⟩], .void, _, .pool ⟨0⟩, _, rfl, rfl, List.mem_cons_self, rfl, .inl rfl⟩

end ShaderTree
