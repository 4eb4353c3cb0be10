import ShaderTree.Compiler
import ShaderTree.Proofs.Acceptance
import ShaderTree.Proofs.Lifting
import ShaderTree.Proofs.ScalarizeWalk

/-! The scalarization of a valid program. The pass always ends, and what it leaves is valid
again save that a variable may be out of scope: one that the initialization of a loop
declares, where an argument moves out of the loop. -/
namespace ShaderTree

theorem WellFormed.constructs {checks : Checks} {table : SymbolTable} {returns : Option Ty} {role : Role}
    {term : Term} (right : WellFormed checks table returns role term) (stands : term.Of tree)
    (constructors : checks.constructors = true) : term.All Term.Constructs := by
  apply right.all stands
  intro returns role term stands right ids ty construct
  obtain ⟨id, node, parts⟩ := term
  obtain rfl : node = .aggregate .construct ids ty := construct
  obtain ⟨_, ⟨types, known, accepted⟩, _, _⟩ := right
  have typed : parts.map Term.ty? = types.map some := by
    rw [← known, List.map_map]
    rfl
  refine ⟨types, typed, fun mixed => ?_⟩
  have firsts : (parts.map Term.face).map Face.id = parts.map Term.id := List.map_map
  have length : (parts.map Term.id).length = types.length := by simpa using congrArg List.length typed
  have seconds := List.map_snd_zip (Nat.le_of_eq length.symm)
  rw [firsts] at accepted
  rw [← seconds] at mixed
  obtain ⟨all, _, _, fills⟩ := Arguments.fills_of_mixes (accepted constructors) mixed
  rw [Arguments.sizes_eq, seconds] at fills
  refine ⟨fun type member => ?_, fills⟩
  rw [← seconds] at member
  obtain ⟨argument, inside, rfl⟩ := List.mem_map.mp member
  exact all argument inside

/-- What the pass makes of the program `term`: it leaves `result` at the root. -/
structure ScalarizedProgram (before after : Workspace) (term result : Term) (fresh : List NodeId) : Prop where
  scalarizes : Scalarizes after.table.pool before.table.pool.size [term] fresh [⟨[], result⟩]
    after.table.pool.size
  changes : before.tree.Changes after.tree term.ids fresh
  stands : result.Of after.tree
  table : before.table.Grows after.table

namespace ScalarizedProgram

variable {before after : Workspace} {term result : Term} {fresh : List NodeId}

theorem rewrites (scalarized : ScalarizedProgram before after term result fresh) :
    Rewrites after.table.pool before.table.pool.size term ⟨[], result⟩ :=
  (scalarized.scalarizes.rewrites (Nat.le_refl _)).2 term _ List.mem_cons_self

theorem id (scalarized : ScalarizedProgram before after term result fresh) : result.id = term.id :=
  congrArg Face.id scalarized.rewrites.face

theorem perm (scalarized : ScalarizedProgram before after term result fresh) : result.ids.Perm (term.ids ++ fresh) := by
  have same := scalarized.scalarizes.perm
  simpa only [List.flatMap_singleton, Rewriting.statements, List.nil_append] using same

theorem nodup (scalarized : ScalarizedProgram before after term result fresh) (stands : term.Of before.tree)
    (nodup : term.ids.Nodup) : result.ids.Nodup := by
  apply scalarized.perm.nodup_iff.mpr
  apply nodup.append scalarized.changes.nodup
  intro id old new
  have low := stands.bounded id old
  have high := ((scalarized.changes.fresh id).mp new).1
  omega

end ScalarizedProgram

/-- The pass ends on every program whose constructors are accepted. -/
theorem Workspace.scalarizeConstructors_ends {space : Workspace} {term : Term} (root : term.id = space.tree.root)
    (stands : term.Of space.tree) (nodup : term.ids.Nodup) (block : term.node.isBlock = true)
    (constructs : term.All Term.Constructs) :
    ∃ result fresh after, Ends scalarizeConstructors space () after ∧
      ScalarizedProgram space after term result fresh := by
  have high : term.height + 3 ≤ space.tree.nodes.size + 1 + 3 := by
    have bound := stands.height_le_size
    omega
  let start : WalkState Nat := { space, own := 0 }
  have standing : term.Of start.space.tree := stands
  have ready : Scalarize.Ready (space.tree.nodes.size + 1 + 3) {} term start :=
    Scalarize.walk_ready standing nodup constructs (.inl block) high
  obtain ⟨⟨moved, result⟩, fresh, after, done, walked⟩ := ready
  have rewrites := (walked.scalarizes.rewrites (Nat.le_refl _)).2 term _ List.mem_cons_self
  obtain rfl : moved = [] := rewrites.moved_of_block block
  have walks : Ends (Workspace.walk Scalarize.visitor 0) space after.own after.space := by
    rw [root] at done
    exact .walk done
  refine ⟨result, fresh, _, walks.bind (.modify _ _), ?_⟩
  have touched := walked.changes
  rw [List.flatMap_singleton] at touched
  exact ⟨walked.scalarizes, touched, walked.stand result (by simp [Rewriting.statements]), walked.table⟩

/-- The program that the pass leaves is valid if what its variables need was not moved out of scope. -/
theorem ScalarizedProgram.valid_iff {before after : Workspace} {term result : Term} {fresh : List NodeId}
    {checks : Checks} (scalarized : ScalarizedProgram before after term result fresh)
    (stands : term.Of before.tree) (valid : Valid checks before.table term) (constructors : checks.constructors = true) :
    Valid checks after.table result ↔
      (checks.references = true → Liftable before.table [] [] term) := by
  have extension := scalarized.table.pool
  have rewrites := scalarized.rewrites
  have known := valid.wellFormed.resolves stands
  constructor
  · intro again references
    exact rewrites.liftable extension known (.nil _ _) trivial (.nil _ _) (again.sees references)
  · intro liftable
    refine ⟨(rewrites.wellFormed extension constructors stands valid.wellFormed).1, fun references => ?_,
      fun single => scalarized.nodup stands (valid.nodup single)⟩
    exact rewrites.inScope extension known (valid.sees references) (liftable references) (.nil _ _) (by simp)

theorem WellFormed.relax {checks : Checks} {table : SymbolTable} {returns : Option Ty} {role : Role} {term : Term}
    (right : WellFormed checks table returns role term) :
    WellFormed { checks with references := false } table returns role term := by
  induction right with
  | @mk returns role id node parts suits fits writable below ih =>
    refine .mk ?_ ?_ writable ih
    · cases role <;> exact suits
    · cases node with
      | aggregate op arguments ty =>
        cases op with
        | construct => exact fits
        | call function =>
          obtain ⟨types, known, _, takes⟩ := fits
          exact ⟨types, known, fun wanted => absurd wanted Bool.false_ne_true, takes⟩
      | _ => exact fits

namespace Compiler

variable {compiler : Compiler} {space : Workspace}

theorem validateTree_iff : Ends compiler.validateTree space (.ok ()) after ↔
    space.tree.validate space.table compiler.checks = .ok () ∧ after = space := by
  rw [validateTree, Ends.bind_iff]
  constructor
  · rintro ⟨_, _, ⟨⟩, rest⟩
    cases verdict : space.tree.validate space.table compiler.checks with
    | ok done =>
      rw [verdict] at rest
      cases rest
      exact ⟨rfl, rfl⟩
    | error rejection =>
      rw [verdict] at rest
      cases rejection with
      | fault fault => cases rest
      | invalid error =>
        obtain ⟨_, _, _, last⟩ := Ends.bind_iff.mp rest
        cases last
  · rintro ⟨verdict, rfl⟩
    refine ⟨_, _, .get _, ?_⟩
    rw [verdict]
    exact .pure _ _

/-- The pass is followed by a validation that passes where nothing moves out of scope. -/
theorem runPass_scalarize_iff {term : Term} (constructors : compiler.checks.constructors = true)
    (single : compiler.checks.singleParent = true) (root : term.id = space.tree.root) (stands : term.Of space.tree)
    (valid : Valid compiler.checks space.table term) :
    (∃ after, Ends (compiler.runPass .scalarize) space (.ok ()) after) ↔
      (compiler.checks.references = true → Liftable space.table [] [] term) := by
  obtain ⟨result, fresh, after, done, scalarized⟩ := Workspace.scalarizeConstructors_ends root stands
    (valid.nodup single) valid.wellFormed.suits (valid.wellFormed.constructs stands constructors)
  rw [← scalarized.valid_iff stands valid constructors]
  constructor
  · rintro ⟨final, ran⟩
    obtain ⟨_, between, passed, validated⟩ := Ends.bind_iff.mp ran
    obtain ⟨_, rfl⟩ := passed.unique done
    obtain ⟨verdict, _⟩ := validateTree_iff.mp validated
    obtain ⟨other, same, standing, again⟩ := Tree.validate_iff.mp verdict
    have here : other.id = result.id := by
      rw [same, scalarized.changes.root, ← root, scalarized.id]
    obtain rfl := standing.unique scalarized.stands here
    exact again
  · intro again
    have here : result.id = after.tree.root := by rw [scalarized.changes.root, ← root, scalarized.id]
    have verdict := Tree.validate_iff.mpr ⟨result, here, scalarized.stands, again⟩
    exact ⟨after, done.bind (validateTree_iff.mpr ⟨verdict, rfl⟩)⟩

/-- Over a valid program, the pass ends, and what it leaves is valid in all but the scopes of
variables. Those are right too, so that the validation after the pass succeeds, exactly where no
argument moves out of the scope of a variable that it uses. -/
theorem scalarize_valid_iff (all : compiler.checks = .all) (valid : space.tree.validate space.table .all = .ok ()) :
    ∃ program : Term, program.id = space.tree.root ∧ program.Of space.tree ∧
      (∃ after, Workspace.scalarizeConstructors.run.run space = (.ok (), after) ∧
        after.tree.validate after.table { Checks.all with references := false } = .ok ()) ∧
      (((compiler.runPass .scalarize).run.run space).1 = .ok (.ok ()) ↔ Liftable space.table [] [] program) := by
  obtain ⟨program, root, stands, right⟩ := Tree.validate_iff.mp valid
  rw [← all] at right
  obtain ⟨result, fresh, after, done, scalarized⟩ := Workspace.scalarizeConstructors_ends root stands
    (right.nodup (by rw [all]; rfl)) right.wellFormed.suits (right.wellFormed.constructs stands (by rw [all]; rfl))
  refine ⟨program, root, stands, ⟨after, done, ?_⟩, ?_⟩
  · have rewritten := (scalarized.rewrites.wellFormed scalarized.table.pool (by rw [all]; rfl) stands
      right.wellFormed).1
    rw [all] at rewritten
    refine Tree.validate_iff.mpr ⟨result, ?_, scalarized.stands, rewritten.relax, nofun, fun _ => ?_⟩
    · rw [scalarized.changes.root, ← root, scalarized.id]
    · exact scalarized.nodup stands (right.nodup (by rw [all]; rfl))
  · have passes := runPass_scalarize_iff (by rw [all]; rfl) (by rw [all]; rfl) root stands right
    rw [all] at passes
    simp only [Checks.all, forall_const] at passes
    rw [← passes]
    constructor
    · intro ended
      exact ⟨_, Prod.ext ended rfl⟩
    · rintro ⟨after, ended⟩
      exact congrArg Prod.fst ended

/-- A loop `for (float x; ; vec4(x, m))` for a 2-by-2 matrix `m`. -/
def loopHeader : Workspace :=
  let matrix : Ty := .matrix .two .two
  let symbol (name : String) (number : Nat) (ty : Ty) : Symbol :=
    { rawName := name, id := ⟨number⟩, origin := .userDefined, kind := .var { ty } }
  { tree :=
      { nodes := ⟨#[.block [⟨2⟩, ⟨9⟩], .symbol (.pool ⟨0⟩) matrix, .declaration ⟨1⟩ none,
          .symbol (.pool ⟨1⟩) .float, .declaration ⟨3⟩ none, .symbol (.pool ⟨1⟩) .float,
          .symbol (.pool ⟨0⟩) matrix, .aggregate .construct [⟨5⟩, ⟨6⟩] (.vector .float .four), .block [],
          .loop .forLoop (some ⟨4⟩) none (some ⟨7⟩) ⟨8⟩]⟩
        root := ⟨0⟩ }
    table :=
      { pool := ⟨#[symbol "m" 96 matrix, symbol "x" 97 .float]⟩
        builtIns := {}
        profile := {} } }

theorem scalarize_valid_iff_loopHeader : loopHeader.tree.validate loopHeader.table .all = .ok () ∧
    ((({} : Compiler).runPass .scalarize).run.run loopHeader).1 = .ok (.error (.undeclaredVariable ⟨5⟩ "x")) ∧
    ∃ program : Term, program.Of loopHeader.tree ∧ ¬ Liftable loopHeader.table [] [] program := by
  have valid : loopHeader.tree.validate loopHeader.table .all = .ok () := rfl
  have fails : ((({} : Compiler).runPass .scalarize).run.run loopHeader).1 =
      .ok (.error (.undeclaredVariable ⟨5⟩ "x")) := by
    decide +kernel
  obtain ⟨program, _, stands, _, passes⟩ := @scalarize_valid_iff {} _ rfl valid
  refine ⟨valid, fails, program, stands, fun liftable => ?_⟩
  have ended := passes.mpr liftable
  rw [fails] at ended
  cases ended

end Compiler
end ShaderTree
