import ShaderTree.Compiler
import ShaderTree.Proofs.Handover
import ShaderTree.Proofs.Observers

/-! The visits of the walk that renames structures. It edits no node. A use of a local structure in
the global scope is noted, and one inside of a function gives the structure a name, unless one of the
structure was noted before or it has such a name. -/
namespace ShaderTree

/-- To rename a symbol changes nothing in the table but its name. -/
theorem SymbolTable.rename_spec {table : SymbolTable} {handle : SymbolHandle} {symbol : Symbol}
    (found : table.pool.get? handle = some symbol) (rawName : String) :
    ∃ pool, table.rename handle rawName = .ok { table with pool } ∧ pool.size = table.pool.size ∧
      pool.get? handle = some { symbol with rawName } ∧
      ∀ other, other ≠ handle → pool.get? other = table.pool.get? other := by
  obtain ⟨pool, written, size, present, others⟩ :=
    Arena.write_spec { symbol with rawName } (Arena.get?_eq_some_lt found)
  refine ⟨pool, ?_, size, present, others⟩
  exact bind_eq_ok.mpr ⟨_, Arena.read_eq_ok.mpr found, bind_eq_ok.mpr ⟨_, written, rfl⟩⟩

namespace StructNames

def isLed (symbol : Symbol) : Bool := lead.toList.isPrefixOf symbol.rawName.toList

/-- What the walk holds before and after the use at `site` of the local structure `symbol`, which is
found at `handle`. -/
inductive Notes (site : Site) (handle : SymbolHandle) (symbol : Symbol) (table : SymbolTable) (state : State) :
    SymbolTable × State → Prop where
  | keep (outside : site.blockDepth ≤ 1) :
      Notes site handle symbol table state (table, { state with kept := state.kept.insert symbol.id })
  | pass (inside : 1 < site.blockDepth) (settled : symbol.id ∈ state.kept ∨ isLed symbol = true) :
      Notes site handle symbol table state (table, state)
  | rename {pool : Pool} (inside : 1 < site.blockDepth) (unkept : symbol.id ∉ state.kept) (unled : isLed symbol = false)
      (renamed : pool.get? handle = some { symbol with rawName := fresh symbol })
      (others : ∀ other, other ≠ handle → pool.get? other = table.pool.get? other) (size : pool.size = table.pool.size) :
      Notes site handle symbol table state ({ table with pool }, { state with renamed := state.renamed + 1 })

theorem met_holding (site : Site) (handle : SymbolHandle) (symbol : Symbol) :
    Holding WalkState.shown (met site handle symbol) := by
  apply Holding.own.bind
  intro state
  split
  · exact .modifyOwn _
  split
  · apply (Holding.work (.record _ fun _ => rfl)).bind
    intro _
    exact (Holding.work (.onTable _)).bind fun _ => .modifyOwn _
  · exact .pure _

theorem visit_holding (moment : Moment) (site : Site) (id : NodeId) :
    Holding WalkState.shown (visit moment site id) := by
  unfold visit
  split
  · apply (Holding.work (.inspect _)).bind
    intro node
    split
    · apply (Holding.work (.inspect _)).bind
      intro symbol
      split
      · exact (met_holding _ _ _).bind fun _ => .pure _
      · exact .pure _
    · exact .pure _
  · exact .pure _

theorem visitor_observes : visitor.Observes := Visitor.observes_of_holding visit_holding

theorem met_notes {site : Site} {before after : WalkState State} {handle : SymbolHandle} {symbol : Symbol}
    (found : before.space.table.pool.get? handle = some symbol) (ends : Ends (met site handle symbol) before () after) :
    Notes site handle symbol before.space.table before.own after.held := by
  obtain ⟨state, same, own, ends⟩ := Ends.bind_iff.mp ends
  obtain ⟨rfl, rfl⟩ := Ends.own_iff.mp own
  split at ends
  case isTrue outside =>
    rw [Walk.modifyOwn, Ends.modify_iff] at ends
    rw [ends]
    exact .keep outside
  case isFalse outside =>
    have inside : 1 < site.blockDepth := Nat.not_le.mp outside
    split at ends
    case isFalse settled =>
      obtain ⟨_, rfl⟩ := Ends.pure_iff.mp ends
      refine .pass inside ?_
      simpa [isLed, Decidable.or_iff_not_imp_left] using settled
    case isTrue unsettled =>
      obtain ⟨unkept, unled⟩ : symbol.id ∉ same.own.kept ∧ isLed symbol = false := by
        simpa [isLed] using unsettled
      obtain ⟨_, logged, recorded, ends⟩ := Ends.bind_iff.mp ends
      obtain ⟨_, between, renames, ends⟩ := Ends.bind_iff.mp ends
      obtain ⟨_, record, rfl⟩ := Ends.work_iff.mp recorded
      obtain ⟨_, onTable, rfl⟩ := Ends.work_iff.mp renames
      rw [Workspace.record, Ends.modify_iff] at record
      rw [Walk.modifyOwn, Ends.modify_iff] at ends
      obtain ⟨table, done, rfl⟩ := Ends.onTable_iff.mp onTable
      obtain ⟨pool, renamed, size, present, others⟩ := SymbolTable.rename_spec found (fresh symbol)
      rw [record, renamed] at done
      obtain rfl := congrArg Prod.snd (Except.ok.inj done)
      rw [ends]
      exact .rename inside unkept unled present others size

structure Meets (visit : Walk.Visit State) (handle : SymbolHandle) (symbol : Symbol) : Prop where
  leaf : visit.moment = .leaf
  typed : (visit.before.space.tree.nodes.get? visit.id).bind structOf? = some handle
  found : visit.before.space.table.pool.get? handle = some symbol
  isLocal : isLocal symbol = true

/-- A visit goes on with the walk, and does nothing unless a use of a local structure is met. -/
theorem visit_ends {visit : Walk.Visit State} (made : visit.MadeBy visitor) (answered : visit.answer = .ok answer) :
    answer = true ∧ ((∀ handle symbol, ¬ Meets visit handle symbol) ∧ visit.after.held = visit.before.held ∨
      ∃ handle symbol, Meets visit handle symbol ∧
        Notes visit.site handle symbol visit.before.space.table visit.before.own visit.after.held) := by
  obtain ⟨moment, site, id, before, _, after⟩ := visit
  obtain rfl : _ = Except.ok answer := answered
  have ends : Ends (StructNames.visit moment site id) before answer after := made
  unfold StructNames.visit at ends
  split at ends
  case isFalse other =>
    obtain ⟨rfl, rfl⟩ := Ends.pure_iff.mp ends
    exact ⟨rfl, .inl ⟨fun _ _ meets => other meets.leaf, rfl⟩⟩
  case isTrue leaf =>
    obtain ⟨node, same, fetched, goesOn⟩ := Ends.bind_iff.mp ends
    obtain ⟨read, rfl⟩ := Ends.reads_iff.mp fetched
    have stands : same.space.tree.nodes.get? id = some node := Arena.read_eq_ok.mp read
    split at goesOn
    case h_2 other =>
      obtain ⟨rfl, rfl⟩ := Ends.pure_iff.mp goesOn
      refine ⟨rfl, .inl ⟨fun handle _ meets => ?_, rfl⟩⟩
      have typed := meets.typed
      rw [stands] at typed
      exact other handle typed
    case h_1 handle typed =>
      obtain ⟨symbol, again, resolved, decides⟩ := Ends.bind_iff.mp goesOn
      obtain ⟨read, rfl⟩ := Ends.reads_iff.mp resolved
      have found : again.space.table.pool.get? handle = some symbol := Arena.read_eq_ok.mp read
      have typed : (again.space.tree.nodes.get? id).bind structOf? = some handle := by rw [stands]; exact typed
      split at decides
      case isTrue isLocal =>
        obtain ⟨_, _, notes, done⟩ := Ends.bind_iff.mp decides
        obtain ⟨rfl, rfl⟩ := Ends.pure_iff.mp done
        exact ⟨rfl, .inr ⟨handle, symbol, ⟨leaf, typed, found, isLocal⟩, met_notes found notes⟩⟩
      case isFalse foreign =>
        obtain ⟨rfl, rfl⟩ := Ends.pure_iff.mp decides
        refine ⟨rfl, .inl ⟨fun other symbol meets => ?_, rfl⟩⟩
        obtain rfl := Option.some.inj (typed.symm.trans meets.typed)
        obtain rfl := Option.some.inj (found.symm.trans meets.found)
        exact foreign meets.isLocal

end StructNames

namespace Compiler

variable {compiler : Compiler} {outcome : Except ValidationError Unit} {space after : Workspace}

/-- A validation reads the tree and the table. -/
theorem validateTree_holding : Holding (fun space => (space.tree, space.table)) compiler.validateTree := by
  apply Holding.get.bind
  intro space
  split
  · exact .pure _
  · exact .throw _
  · exact (Holding.record _ fun _ => rfl).bind fun _ => .pure _

/-- To rename structures changes nothing in the tree, whatever comes of it. -/
theorem runPass_structNames_holding : Holding Workspace.tree (compiler.runPass .structNames) := by
  have renames : Holding Workspace.tree Workspace.renameStructs :=
    (StructNames.visitor_observes.holding {}).bind fun _ => .record _ fun _ => rfl
  exact renames.bind fun _ space => congrArg Prod.fst (validateTree_holding space)

/-- The table after the pass is the one after the walk. -/
theorem runPass_structNames_ends (ends : Ends (compiler.runPass .structNames) space outcome after) :
    ∃ between : Workspace, Ends Workspace.renameStructs space () between ∧ after.table = between.table := by
  obtain ⟨_, between, renames, validates⟩ := Ends.bind_iff.mp ends
  refine ⟨between, renames, ?_⟩
  have same := compiler.validateTree_holding between
  rw [validates] at same
  exact congrArg Prod.snd same

end Compiler
end ShaderTree
