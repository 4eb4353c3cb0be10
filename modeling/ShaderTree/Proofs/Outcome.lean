import ShaderTree.Walk.Basic

/-! Runs that end with a value: of computations that a fault or rejection may end, and
of stateful work. The run of a sequence is taken apart into the runs of its steps. -/
namespace ShaderTree

theorem bind_eq_ok {computation : Except ε α} {next : α → Except ε β} :
    computation >>= next = .ok result ↔ ∃ value, computation = .ok value ∧ next value = .ok result := by
  cases computation <;> simp [Bind.bind, Except.bind]

theorem bind_eq_error {computation : Except ε α} {next : α → Except ε β} : computation >>= next = .error reason ↔
    computation = .error reason ∨ ∃ value, computation = .ok value ∧ next value = .error reason := by
  cases computation <;> simp [Bind.bind, Except.bind]

theorem pure_eq_ok : (pure value : Except ε α) = .ok result ↔ value = result := by
  simp [pure, Except.pure]

theorem throw_eq_ok : (throw reason : Except ε α) = .ok result ↔ False := by
  simp [throw, throwThe, MonadExceptOf.throw]

theorem Rejection.lift_eq_ok {computation : Except Fault α} :
    (liftM computation : Except Rejection α) = .ok result ↔ computation = .ok result := by
  cases computation with
  | ok value =>
    change Except.ok value = _ ↔ _
    simp
  | error fault =>
    change Except.error (Rejection.fault fault) = _ ↔ _
    simp

theorem Rejection.lift_eq_fault {computation : Except Fault α} {cause : Fault} :
    (liftM computation : Except Rejection α) = .error (.fault cause) ↔ computation = .error cause := by
  cases computation with
  | ok value =>
    change Except.ok value = _ ↔ _
    simp
  | error own =>
    change Except.error (Rejection.fault own) = _ ↔ _
    simp

/-- Started in `before`, the work yields `value` and leaves `after`. -/
def Ends (action : ExceptT Fault (StateM σ) α) (before : σ) (value : α) (after : σ) : Prop :=
  action.run.run before = (.ok value, after)

namespace Ends

theorem pure (value : α) (state : σ) :
    Ends (Pure.pure value : ExceptT Fault (StateM σ) α) state value state := rfl

theorem bind_iff {action : ExceptT Fault (StateM σ) α} {next : α → ExceptT Fault (StateM σ) β} :
    Ends (action >>= next) before result after ↔
      ∃ value between, Ends action before value between ∧ Ends (next value) between result after := by
  simp only [Ends, ExceptT.run_bind, StateT.run_bind]
  generalize action.run.run before = first
  obtain ⟨outcome, state⟩ := first
  cases outcome with
  | ok value =>
    constructor
    · intro h
      exact ⟨value, state, rfl, h⟩
    · rintro ⟨u, s, same, h⟩
      cases same
      exact h
  | error fault =>
    constructor
    · intro h
      cases congrArg Prod.fst h
    · rintro ⟨u, s, same, _⟩
      cases congrArg Prod.fst same

theorem bind {action : ExceptT Fault (StateM σ) α} {next : α → ExceptT Fault (StateM σ) β}
    (first : Ends action before value between) (second : Ends (next value) between result after) :
    Ends (action >>= next) before result after :=
  bind_iff.mpr ⟨value, between, first, second⟩

theorem exists_bind {action : ExceptT Fault (StateM σ) α} {next : α → ExceptT Fault (StateM σ) β}
    (first : Ends action before value between) (rest : ∃ after, Ends (next value) between result after) :
    ∃ after, Ends (action >>= next) before result after := by
  obtain ⟨after, second⟩ := rest
  exact ⟨after, first.bind second⟩

theorem modify_iff {change : σ → σ} {before after : σ} {value : Unit} :
    Ends (modify change : ExceptT Fault (StateM σ) Unit) before value after ↔ after = change before := by
  constructor
  · intro ends
    exact (congrArg Prod.snd ends).symm
  · rintro rfl
    rfl

theorem own_iff {before after : WalkState σ} {value : σ} :
    Ends Walk.own before value after ↔ value = before.own ∧ after = before := by
  constructor
  · intro ends
    exact ⟨(Except.ok.inj (congrArg Prod.fst ends)).symm, (congrArg Prod.snd ends).symm⟩
  · rintro ⟨rfl, rfl⟩
    rfl

theorem modify (change : σ → σ) (state : σ) :
    Ends (modify change : ExceptT Fault (StateM σ) Unit) state () (change state) := rfl

theorem get (state : σ) : Ends (get : ExceptT Fault (StateM σ) σ) state state state := rfl

theorem inspect {operation : Tree → SymbolTable → Except Fault α} {space : Workspace}
    (found : operation space.tree space.table = .ok value) :
    Ends (Workspace.inspect operation) space value space :=
  congrArg (·, space) found

theorem onTree {operation : Tree → SymbolTable → Except Fault (α × Tree)} {space : Workspace}
    (done : operation space.tree space.table = .ok (value, tree)) :
    Ends (Workspace.onTree operation) space value { space with tree } := by
  simp only [Ends, Workspace.onTree, ExceptT.run_mk, StateT.run, done]

theorem onTable {operation : SymbolTable → Except Fault (α × SymbolTable)} {space : Workspace}
    (done : operation space.table = .ok (value, table)) :
    Ends (Workspace.onTable operation) space value { space with table } := by
  simp only [Ends, Workspace.onTable, ExceptT.run_mk, StateT.run, done]

/-- Work on the workspace leaves the rest of the state of a walk alone. -/
theorem work {action : WorkM α} {state : WalkState σ} (done : Ends action state.space value space) :
    Ends (Walk.work action) state value { state with space } := by
  have outcome : action state.space = (.ok value, space) := done
  simp only [Ends, Walk.work, ExceptT.run_mk, StateT.run, outcome]

/-- A walk of the tree is one of its root. -/
theorem walk {visitor : Visitor σ} {space : Workspace} {after : WalkState σ}
    (done : Ends (Walk.node visitor (space.tree.nodes.size + 1 + visitor.growth) {} space.tree.root)
      { space, own } () after) :
    Ends (Workspace.walk visitor own) space after.own after.space := by
  have outcome : Walk.node visitor (space.tree.nodes.size + 1 + visitor.growth) {} space.tree.root { space, own } =
    (.ok (), after) := done
  simp only [Ends, Workspace.walk, ExceptT.run_mk, StateT.run, outcome]

/-- The outcome of a run is unique. -/
theorem unique {action : ExceptT Fault (StateM σ) α} (first : Ends action before u a)
    (second : Ends action before v b) : u = v ∧ a = b := by
  have same := first.symm.trans second
  cases same
  exact ⟨rfl, rfl⟩

section
variable {space after : Workspace} {state last : WalkState σ}

theorem pure_iff {first : σ} {final : σ} :
    Ends (Pure.pure result : ExceptT Fault (StateM σ) α) first value final ↔ result = value ∧ first = final := by
  constructor
  · intro ends
    cases ends
    exact ⟨rfl, rfl⟩
  · rintro ⟨rfl, rfl⟩
    exact pure _ _

theorem throw_iff {fault : Fault} {first : σ} {final : σ} :
    Ends (throw fault : ExceptT Fault (StateM σ) α) first value final ↔ False :=
  iff_false_intro fun ends => by cases congrArg Prod.fst ends

theorem inspect_iff {operation : Tree → SymbolTable → Except Fault α} :
    Ends (Workspace.inspect operation) space value after ↔
      operation space.tree space.table = .ok value ∧ after = space := by
  constructor
  · intro ends
    exact ⟨congrArg Prod.fst ends, (congrArg Prod.snd ends).symm⟩
  · rintro ⟨found, rfl⟩
    exact inspect found

theorem onTree_iff {operation : Tree → SymbolTable → Except Fault (α × Tree)} :
    Ends (Workspace.onTree operation) space value after ↔
      ∃ tree, operation space.tree space.table = .ok (value, tree) ∧ after = { space with tree } := by
  constructor
  · intro ends
    simp only [Ends, Workspace.onTree, ExceptT.run_mk, StateT.run] at ends
    cases done : operation space.tree space.table with
    | error fault =>
      rw [done] at ends
      cases congrArg Prod.fst ends
    | ok outcome =>
      rw [done] at ends
      obtain ⟨same, rfl⟩ := Prod.mk.inj ends
      obtain rfl := Except.ok.inj same
      exact ⟨_, rfl, rfl⟩
  · rintro ⟨tree, done, rfl⟩
    exact onTree done

theorem onTable_iff {operation : SymbolTable → Except Fault (α × SymbolTable)} :
    Ends (Workspace.onTable operation) space value after ↔
      ∃ table, operation space.table = .ok (value, table) ∧ after = { space with table } := by
  constructor
  · intro ends
    simp only [Ends, Workspace.onTable, ExceptT.run_mk, StateT.run] at ends
    cases done : operation space.table with
    | error fault =>
      rw [done] at ends
      cases congrArg Prod.fst ends
    | ok outcome =>
      rw [done] at ends
      obtain ⟨same, rfl⟩ := Prod.mk.inj ends
      obtain rfl := Except.ok.inj same
      exact ⟨_, rfl, rfl⟩
  · rintro ⟨table, done, rfl⟩
    exact onTable done

theorem work_iff {action : WorkM α} :
    Ends (Walk.work action) state value last ↔ ∃ space, Ends action state.space value space ∧ last = { state with space } := by
  constructor
  · intro ends
    have done : (action state.space).1 = .ok value := congrArg Prod.fst ends
    exact ⟨(action state.space).2, Prod.ext done rfl, (congrArg Prod.snd ends).symm⟩
  · rintro ⟨space, done, rfl⟩
    exact work done

theorem reads_iff {operation : Tree → SymbolTable → Except Fault α} :
    Ends (Walk.work (Workspace.inspect operation)) state value last ↔
      operation state.space.tree state.space.table = .ok value ∧ last = state := by
  rw [work_iff]
  constructor
  · rintro ⟨space, ends, rfl⟩
    obtain ⟨found, rfl⟩ := inspect_iff.mp ends
    exact ⟨found, rfl⟩
  · rintro ⟨found, rfl⟩
    exact ⟨_, inspect found, rfl⟩

end

end Ends
end ShaderTree
