import Mathlib.Data.List.Basic
import ShaderTree.Proofs.Leaves
import ShaderTree.Proofs.StructNames

/-! The names of structures after the walk that renames them. What becomes of a structure is known from
its uses in the order of the walk: the first of them decides. -/
namespace ShaderTree

/-- No two symbols of the pool have one identity, as the supply hands out each of them once. -/
def SymbolTable.Identified (table : SymbolTable) : Prop := (table.pool.items.toList.map Symbol.id).Nodup

instance (table : SymbolTable) : Decidable table.Identified := inferInstanceAs (Decidable (List.Nodup _))

theorem SymbolTable.Identified.handle_eq {table : SymbolTable} (identified : table.Identified) {one other : SymbolHandle}
    {first second : Symbol} (left : table.pool.get? one = some first) (right : table.pool.get? other = some second)
    (same : first.id = second.id) : one = other := by
  have id_at {handle : SymbolHandle} {symbol : Symbol} (found : table.pool.get? handle = some symbol) :
      (table.pool.items.toList.map Symbol.id)[handle.index]? = some symbol.id := by
    have item : table.pool.items[handle.index]? = some symbol := found
    simp [item]
  obtain ⟨_, left⟩ := List.getElem?_eq_some_iff.mp (id_at left)
  obtain ⟨_, right⟩ := List.getElem?_eq_some_iff.mp (id_at right)
  exact congrArg Handle.mk (identified.getElem_inj_iff.mp (left.trans (same.trans right.symm)))

namespace StructNames

variable {symbol other current : Symbol} {uses : List Site} {place : Site} {handle : SymbolHandle} {table : SymbolTable}
  {state : State} {after : SymbolTable × State}

theorem fresh_toList (symbol : Symbol) : (fresh symbol).toList =
    lead.toList ++ (Nat.toDigits 10 symbol.id.number ++ '_' :: symbol.rawName.toList) := by
  simp [fresh, String.toList_append]

theorem isLed_fresh (symbol : Symbol) : isLed { symbol with rawName := fresh symbol } = true := by
  rw [isLed, fresh_toList, List.isPrefixOf_iff_prefix]
  exact List.prefix_append _ _

/-- The names that are given tell identities apart, as the number in a name ends where an underscore is. -/
theorem id_eq_of_fresh (same : fresh symbol = fresh other) : symbol.id = other.id := by
  have chars := congrArg String.toList same
  rw [fresh_toList, fresh_toList, List.append_cancel_left_eq] at chars
  have front (number : Nat) (rest : List Char) :
      (Nat.toDigits 10 number ++ '_' :: rest).takeWhile (· ≠ '_') = Nat.toDigits 10 number := by
    rw [List.takeWhile_append_of_pos]
    · simp
    · intro digit member
      simpa using ne_of_mem_of_not_mem member Nat.underscore_not_in_toDigits
  have digits := congrArg (List.takeWhile (· ≠ '_')) chars
  rw [front, front] at digits
  have numbers := congrArg (Nat.ofDigitChars 10 · 0) digits
  simp only [Nat.ofDigitChars_ten_toDigits] at numbers
  exact congrArg Identity.mk numbers

/-- A structure with these uses gets a name: it is local, has none yet, and is used inside of a function
first. -/
def Renames (symbol : Symbol) (uses : List Site) : Prop :=
  isLocal symbol = true ∧ isLed symbol = false ∧ ∃ first ∈ uses.head?, 1 < first.blockDepth

instance (symbol : Symbol) (uses : List Site) : Decidable (Renames symbol uses) :=
  inferInstanceAs (Decidable (_ ∧ _ ∧ _))

def named (symbol : Symbol) (uses : List Site) : Symbol :=
  if Renames symbol uses then { symbol with rawName := fresh symbol } else symbol

theorem named_id (symbol : Symbol) (uses : List Site) : (named symbol uses).id = symbol.id := by
  unfold named
  split <;> rfl

theorem isLocal_named (symbol : Symbol) (uses : List Site) : isLocal (named symbol uses) = isLocal symbol := by
  unfold named
  split <;> rfl

theorem named_foreign (foreign : isLocal symbol = false) : named symbol uses = symbol :=
  if_neg fun renames => by cases foreign.symm.trans renames.1

theorem named_led (led : isLed symbol = true) : named symbol uses = symbol :=
  if_neg fun renames => by cases led.symm.trans renames.2.1

@[simp] theorem named_nil (symbol : Symbol) : named symbol [] = symbol :=
  if_neg fun ⟨_, _, _, first, _⟩ => by cases first

theorem renames_cons (symbol : Symbol) (first : Site) (rest : List Site) :
    Renames symbol (first :: rest) ↔ isLocal symbol = true ∧ isLed symbol = false ∧ 1 < first.blockDepth := by
  simp [Renames]

theorem named_cases (symbol : Symbol) (uses : List Site) :
    Renames symbol uses ∧ named symbol uses = { symbol with rawName := fresh symbol } ∨
      ¬ Renames symbol uses ∧ named symbol uses = symbol := by
  by_cases renames : Renames symbol uses
  · exact .inl ⟨renames, if_pos renames⟩
  · exact .inr ⟨renames, if_neg renames⟩

theorem isLed_of_rawName (same : symbol.rawName = fresh other) : isLed symbol = true := by
  rw [isLed, same]
  exact isLed_fresh other

/-- A name that is given is another one. -/
theorem fresh_ne (unled : isLed symbol = false) : fresh symbol ≠ symbol.rawName :=
  fun same => by cases unled.symm.trans (isLed_of_rawName same.symm)

/-- What a use in the global scope changes is known from the uses before it, and so it is with any use
but the first. -/
theorem named_append (settled : uses ≠ [] ∨ place.blockDepth ≤ 1) :
    named symbol (uses ++ [place]) = named symbol uses := by
  cases uses with
  | cons first rest => rfl
  | nil =>
    have outside : place.blockDepth ≤ 1 := settled.resolve_left (by simp)
    rw [named_nil]
    refine if_neg fun ⟨_, _, first, same, inside⟩ => ?_
    obtain rfl : place = first := Option.some.inj same
    omega

/-- A local structure whose first use was inside of a function has a name like those given. -/
theorem isLed_named (inside : isLocal symbol = true) (first : Site) (deep : 1 < first.blockDepth) (rest : List Site) :
    isLed (named symbol (first :: rest)) = true := by
  cases led : isLed symbol with
  | true => rw [named_led led, led]
  | false =>
    rw [named, if_pos ⟨inside, led, first, rfl, deep⟩]
    exact isLed_fresh symbol

def KeptBy (uses : List Site) : Prop := ∃ place ∈ uses, place.blockDepth ≤ 1

/-- A use of a local structure settles its name if it is the first one. -/
theorem Notes.own (notes : Notes place handle (named symbol uses) table state after) (inside : isLocal symbol = true)
    (found : table.pool.get? handle = some (named symbol uses)) (kept : symbol.id ∈ state.kept ↔ KeptBy uses) :
    after.1.pool.get? handle = some (named symbol (uses ++ [place])) ∧
      (symbol.id ∈ after.2.kept ↔ KeptBy (uses ++ [place])) := by
  have deeper (deep : 1 < place.blockDepth) : KeptBy (uses ++ [place]) ↔ KeptBy uses := by
    simp [KeptBy, or_and_right, exists_or, Nat.not_le_of_lt deep]
  cases notes with
  | keep outside =>
    rw [named_append (.inr outside)]
    refine ⟨found, ?_⟩
    simp [named_id, KeptBy, outside]
  | pass deep settled =>
    rw [deeper deep]
    refine ⟨?_, kept⟩
    cases uses with
    | cons first rest => exact found
    | nil =>
      rw [named_nil] at settled found
      have led : isLed symbol = true := settled.resolve_left fun member => by
        obtain ⟨_, none, _⟩ := kept.mp member
        cases none
      rw [named_led led]
      exact found
  | rename deep unkept unled renamed =>
    rw [deeper deep]
    refine ⟨?_, kept⟩
    cases uses with
    | nil =>
      rw [named_nil] at renamed unled
      exact renamed.trans (congrArg some (if_pos ⟨inside, unled, place, rfl, deep⟩).symm)
    | cons first rest =>
      -- the first use would have kept the name or given one
      rw [named_id] at unkept
      have early : 1 < first.blockDepth :=
        Nat.lt_of_not_le fun outside => unkept (kept.mpr ⟨first, List.mem_cons_self, outside⟩)
      cases unled.symm.trans (isLed_named inside first early rest)

/-- A use of a structure changes nothing for the others. -/
theorem Notes.others (notes : Notes place handle symbol table state after) :
    (∀ other, other ≠ handle → after.1.pool.get? other = table.pool.get? other) ∧
      ∀ id, id ≠ symbol.id → (id ∈ after.2.kept ↔ id ∈ state.kept) := by
  cases notes with
  | keep => exact ⟨fun _ _ => rfl, fun id differs => by simp [differs]⟩
  | pass => exact ⟨fun _ _ => rfl, fun _ _ => Iff.rfl⟩
  | rename _ _ _ _ others => exact ⟨others, fun _ _ => Iff.rfl⟩

def use? (handle : SymbolHandle) (visit : Walk.Visit State) : Option Site :=
  if visit.moment = .leaf ∧ (visit.before.space.tree.nodes.get? visit.id).bind structOf? = some handle then
    some visit.site
  else none

structure Holds (table : SymbolTable) (uses : SymbolHandle → List Site) (held : SymbolTable × State) : Prop where
  names : ∀ handle, held.1.pool.get? handle = (table.pool.get? handle).map (named · (uses handle))
  kept : ∀ handle symbol, table.pool.get? handle = some symbol → isLocal symbol = true →
    (symbol.id ∈ held.2.kept ↔ KeptBy (uses handle))

theorem Holds.start (table : SymbolTable) : Holds table (fun _ => []) (table, {}) where
  names handle := by cases table.pool.get? handle <;> simp
  kept _ _ _ _ := by simp [KeptBy]

section
variable {uses : SymbolHandle → List Site} {visit : Walk.Visit State}

/-- A visit that is no use of a local structure changes nothing. -/
theorem Holds.unmet (holds : Holds table uses visit.before.held) (free : ∀ handle symbol, ¬ Meets visit handle symbol)
    (same : visit.after.held = visit.before.held) :
    Holds table (fun handle => uses handle ++ (use? handle visit).toList) visit.after.held := by
  have idle (handle : SymbolHandle) (symbol : Symbol) (found : table.pool.get? handle = some symbol)
      (inside : isLocal symbol = true) : use? handle visit = none := by
    refine if_neg fun ⟨leaf, typed⟩ => free handle (named symbol (uses handle)) ⟨leaf, typed, ?_, ?_⟩
    · exact (holds.names handle).trans (by rw [found]; rfl)
    · rw [isLocal_named, inside]
  rw [same]
  constructor
  case names =>
    intro handle
    rw [holds.names handle]
    cases found : table.pool.get? handle with
    | none => rfl
    | some symbol =>
      cases inside : isLocal symbol with
      | true => simp [idle handle symbol found inside]
      | false => simp [named_foreign inside]
  case kept =>
    intro handle symbol found inside
    simpa [idle handle symbol found inside] using holds.kept handle symbol found inside

/-- A use of a local structure is one more use of it, and none of another. -/
theorem Holds.met (holds : Holds table uses visit.before.held) (identified : table.Identified)
    (meets : Meets visit handle current)
    (notes : Notes visit.site handle current visit.before.space.table visit.before.own visit.after.held) :
    Holds table (fun handle => uses handle ++ (use? handle visit).toList) visit.after.held := by
  have typed := meets.typed
  have used : use? handle visit = some visit.site := if_pos ⟨meets.leaf, typed⟩
  have idle (other : SymbolHandle) (differs : other ≠ handle) : use? other visit = none :=
    if_neg fun ⟨_, also⟩ => differs (Option.some.inj (also.symm.trans typed))
  obtain ⟨symbol, found, rfl⟩ := Option.map_eq_some_iff.mp ((holds.names handle).symm.trans meets.found)
  have inside : isLocal symbol = true := (isLocal_named symbol _).symm.trans meets.isLocal
  obtain ⟨name, keeps⟩ := notes.own inside meets.found (holds.kept handle symbol found inside)
  obtain ⟨names, kept⟩ := notes.others
  constructor
  case names =>
    intro other
    by_cases same : other = handle
    · subst same
      simp [used, name, found]
    · rw [names other same, idle other same, Option.toList_none, List.append_nil]
      exact holds.names other
  case kept =>
    intro other old held also
    by_cases same : other = handle
    · subst same
      obtain rfl := Option.some.inj (found.symm.trans held)
      simpa [used] using keeps
    · have differs : old.id ≠ symbol.id := fun equal => same (identified.handle_eq held found equal)
      rw [kept _ (by rwa [named_id]), idle other same, Option.toList_none, List.append_nil]
      exact holds.kept other old held also

theorem Holds.next {answer : Bool} (holds : Holds table uses visit.before.held) (identified : table.Identified)
    (made : visit.MadeBy visitor) (answered : visit.answer = .ok answer) :
    Holds table (fun handle => uses handle ++ (use? handle visit).toList) visit.after.held := by
  obtain ⟨_, ⟨free, same⟩ | ⟨handle, current, meets, notes⟩⟩ := visit_ends made answered
  · exact holds.unmet free same
  · exact holds.met identified meets notes

end

/-- What is held after a chain of visits. -/
theorem Holds.visits {uses : SymbolHandle → List Site} {visits : List (Walk.Visit State)} {before last : WalkState State}
    (linked : Walk.Linked before visits last) (holds : Holds table uses before.held) (identified : table.Identified)
    (each : ∀ visit ∈ visits, visit.MadeBy visitor ∧ ∃ answer, visit.answer = .ok answer) :
    Holds table (fun handle => uses handle ++ visits.filterMap (use? handle)) last.held := by
  induction visits generalizing before uses with
  | nil =>
    have same : last.held = before.held := linked
    simpa [same] using holds
  | cons visit rest ih =>
    obtain ⟨same, later⟩ := linked
    obtain ⟨⟨made, answer, answered⟩, others⟩ := List.forall_mem_cons.mp each
    rw [← same] at holds
    have next := ih later (holds.next identified made answered) others
    have steps (handle : SymbolHandle) : uses handle ++ (use? handle visit).toList ++ rest.filterMap (use? handle) =
        uses handle ++ (visit :: rest).filterMap (use? handle) := by
      rw [List.append_assoc, List.filterMap_cons]
      cases use? handle visit <;> rfl
    simpa only [steps] using next

end StructNames

def StructNames.useAt? (handle : SymbolHandle) : Site × Node → Option Site
  | (place, node) => if structOf? node = some handle then some place else none

/-- Where variables of the structure at `handle` are used in the piece, in the order of a walk. -/
def Term.uses (handle : SymbolHandle) (term : Term) : List Site :=
  (term.leaves {}).filterMap fun (place, piece) => StructNames.useAt? handle (place, piece.node)

namespace StructNames

theorem use?_eq (handle : SymbolHandle) (visit : Walk.Visit State) :
    use? handle visit = visit.leaf?.bind (useAt? handle) := by
  by_cases leaf : visit.moment = .leaf
  · cases found : visit.before.space.tree.nodes.get? visit.id <;> simp [use?, Walk.Visit.leaf?, useAt?, leaf, found]
  · simp [use?, Walk.Visit.leaf?, leaf]

end StructNames

/-- After the walk, what each structure is called is known from its uses. -/
theorem Workspace.renameStructs_names {space after : Workspace} (identified : space.table.Identified)
    (ends : Ends renameStructs space () after) :
    ∃ term : Term, term.id = space.tree.root ∧ term.Of space.tree ∧ ∀ handle,
      after.table.pool.get? handle = (space.table.pool.get? handle).map (StructNames.named · (term.uses handle)) := by
  obtain ⟨own, between, walks, records⟩ := Ends.bind_iff.mp ends
  rw [record, Ends.modify_iff] at records
  obtain ⟨last, rfl, linked, each, runs⟩ := walk_ends walks
  obtain ⟨term, root, stands, leaves⟩ := runs.covers fun visit member => by
    obtain ⟨made, answer, answered⟩ := each visit member
    obtain ⟨rfl, _⟩ := StructNames.visit_ends made answered
    exact ⟨StructNames.visitor_observes visit made, answered⟩
  have holds := StructNames.Holds.visits linked (.start space.table) identified each
  refine ⟨term, root, stands, fun handle => ?_⟩
  have uses : (space.itinerary StructNames.visitor {}).filterMap (StructNames.use? handle) = term.uses handle := by
    have visited (visit : Walk.Visit StructNames.State) := StructNames.use?_eq handle visit
    rw [List.filterMap_congr fun visit _ => visited visit, ← List.filterMap_filterMap, leaves, List.filterMap_map]
    rfl
  have name := holds.names handle
  rw [uses, List.nil_append] at name
  rw [records]
  exact name

/-- A variable of the structure at `handle` is used below the nodes `above`. -/
def Tree.UsesStruct (tree : Tree) (handle : SymbolHandle) (above : List NodeId) : Prop :=
  ∃ id, tree.Ancestry id above ∧ (tree.nodes.get? id).bind StructNames.structOf? = some handle

namespace Term

variable {tree : Tree} {term : Term} {handle : SymbolHandle} {place : Site} {above : List NodeId}

theorem mem_uses_iff (stands : term.Of tree) :
    place ∈ term.uses handle ↔ ∃ piece, Arrives {} term place piece ∧ StructNames.structOf? piece.node = some handle := by
  simp only [uses, List.mem_filterMap, Prod.exists, StructNames.useAt?, Option.ite_none_right_eq_some]
  constructor
  · rintro ⟨_, piece, member, typed, same⟩
    obtain rfl := Option.some.inj same
    exact ⟨piece, ((mem_leaves_iff stands).mp member).1, typed⟩
  · rintro ⟨piece, arrives, typed⟩
    have leaf : piece.node.isLeaf = true := by
      cases node : piece.node with
      | symbol => rfl
      | _ => simp [node, StructNames.structOf?] at typed
    exact ⟨place, piece, (mem_leaves_iff stands).mpr ⟨arrives, leaf⟩, typed, rfl⟩

/-- The site of a use knows a way to it. -/
theorem tells_of_uses (root : term.id = tree.root) (stands : term.Of tree) (member : place ∈ term.uses handle) :
    ∃ id, place.Tells tree id ∧ (tree.nodes.get? id).bind StructNames.structOf? = some handle := by
  have knows : ({} : Site).Tells tree term.id := root ▸ ⟨.root, rfl, rfl⟩
  obtain ⟨piece, arrives, typed⟩ := (mem_uses_iff stands).mp member
  have found := (stands.of_mem_pieces arrives.mem_pieces).found
  exact ⟨piece.id, arrives.tells stands knows, by rw [found]; exact typed⟩

/-- The uses that a walk comes to are those that the tree has. -/
theorem uses_iff (root : term.id = tree.root) (stands : term.Of tree) :
    tree.UsesStruct handle above ↔ ∃ place ∈ term.uses handle, place.ancestors = above := by
  constructor
  · rintro ⟨id, ancestry, typed⟩
    obtain ⟨place, piece, arrives, rfl, rfl⟩ := exists_arrives root stands ancestry
    rw [(stands.of_mem_pieces arrives.mem_pieces).found] at typed
    exact ⟨place, (mem_uses_iff stands).mpr ⟨piece, arrives, typed⟩, rfl⟩
  · rintro ⟨place, member, rfl⟩
    obtain ⟨id, tells, typed⟩ := tells_of_uses root stands member
    exact ⟨id, tells.ancestry, typed⟩

theorem blockDepth_of_uses (root : term.id = tree.root) (stands : term.Of tree) (member : place ∈ term.uses handle) :
    place.blockDepth = place.ancestors.countP tree.isBlock := by
  obtain ⟨id, tells, _⟩ := tells_of_uses root stands member
  exact tells.blockDepth

end Term

/-- Ways are all in a list that has the way to the root, and with each way those one step further. -/
theorem Tree.Ancestry.mem_of_closed {tree : Tree} {ways : List (NodeId × List NodeId)} {id : NodeId} {above : List NodeId}
    (root : (tree.root, []) ∈ ways)
    (closed : ∀ way ∈ ways, ∀ node ∈ tree.nodes.get? way.1, ∀ child ∈ node.children, (child, way.1 :: way.2) ∈ ways)
    (ancestry : tree.Ancestry id above) : (id, above) ∈ ways := by
  induction ancestry with
  | root => exact root
  | child _ link ih =>
    obtain ⟨node, found, member⟩ := link
    exact closed _ ih node found _ member

namespace Compiler

open StructNames (isLocal isLed fresh named structOf?)

variable {compiler : Compiler} {outcome : Except ValidationError Unit} {space after : Workspace}
  {handle one other : SymbolHandle} {symbol first second : Symbol} {above : List NodeId}

theorem runPass_structNames_names (identified : space.table.Identified)
    (ends : Ends (compiler.runPass .structNames) space outcome after) :
    ∃ term : Term, term.id = space.tree.root ∧ term.Of space.tree ∧ ∀ handle symbol,
      space.table.pool.get? handle = some symbol → after.table.pool.get? handle = some (named symbol (term.uses handle)) := by
  obtain ⟨between, renames, table⟩ := runPass_structNames_ends ends
  obtain ⟨term, root, stands, names⟩ := Workspace.renameStructs_names identified renames
  refine ⟨term, root, stands, fun handle symbol found => ?_⟩
  rw [table, names, found]
  rfl

/-- A structure that is used in the global scope keeps its name if it is not local, has a name like those
given, or is used in the global scope first. If a function before uses it, it gets a name, wherever
the other uses stand. -/
theorem structNames_keeps_iff (identified : space.table.Identified)
    (ends : (compiler.runPass .structNames).run.run space = (.ok outcome, after))
    (found : space.table.pool.get? handle = some symbol) (used : space.tree.UsesStruct handle above)
    (outside : above.countP space.tree.isBlock ≤ 1) :
    ∃ (term : Term) (earliest : Site) (left : Symbol), term.id = space.tree.root ∧ term.Of space.tree ∧
      (term.uses handle).head? = some earliest ∧ after.table.pool.get? handle = some left ∧
      (left.rawName = symbol.rawName ↔ isLocal symbol = false ∨ isLed symbol = true ∨
        earliest.ancestors.countP space.tree.isBlock ≤ 1) ∧
      (left.rawName ≠ symbol.rawName → left = { symbol with rawName := fresh symbol }) := by
  obtain ⟨term, root, stands, names⟩ := runPass_structNames_names identified ends
  obtain ⟨place, member, rfl⟩ := (Term.uses_iff root stands).mp used
  obtain ⟨earliest, rest, uses⟩ := List.exists_cons_of_ne_nil (List.ne_nil_of_mem member)
  have depth := Term.blockDepth_of_uses root stands (uses ▸ List.mem_cons_self : earliest ∈ term.uses handle)
  refine ⟨term, earliest, _, root, stands, by rw [uses]; rfl, names handle symbol found, ?_⟩
  rw [← depth, uses]
  rcases StructNames.named_cases symbol (earliest :: rest) with ⟨renames, same⟩ | ⟨renames, same⟩
  · obtain ⟨inside, unled, deep⟩ := (StructNames.renames_cons _ _ _).mp renames
    rw [same]
    simp [inside, unled, StructNames.fresh_ne unled, deep]
  · rw [StructNames.renames_cons] at renames
    rw [same]
    refine ⟨iff_of_true rfl ?_, fun differs => absurd rfl differs⟩
    by_contra otherwise
    simp only [not_or, Bool.not_eq_false, Bool.not_eq_true, Nat.not_le] at otherwise
    exact renames otherwise

/-- A function declares a variable of a structure, and so does the program after it. -/
def laterUse : Workspace :=
  let struct : Ty := .struct (.pool ⟨1⟩)
  let symbol (name : String) (number : Nat) (kind : SymbolKind) : Symbol :=
    { rawName := name, id := ⟨number⟩, origin := .userDefined, kind }
  { tree :=
      { nodes := ⟨#[.block [⟨4⟩, ⟨6⟩], .symbol (.pool ⟨2⟩) struct, .declaration ⟨1⟩ none, .block [⟨2⟩],
          .definition (.pool ⟨0⟩) ⟨3⟩, .symbol (.pool ⟨3⟩) struct, .declaration ⟨5⟩ none]⟩
        root := ⟨0⟩ }
    table :=
      { pool := ⟨#[symbol "main" 96 (.function (.new .void false)), symbol "S" 97 (.struct { fields := [] }),
          symbol "a" 98 (.var { ty := struct }), symbol "g" 99 (.var { ty := struct })]⟩
        builtIns := {}
        profile := {} } }

/-- The structure loses the name that it has in the global scope. -/
theorem structNames_keeps_iff_laterUse : ∃ (after : Workspace) (left : Symbol) (term : Term) (earliest : Site),
    (({} : Compiler).runPass .structNames).run.run laterUse = (.ok (.ok ()), after) ∧
      laterUse.tree.UsesStruct ⟨1⟩ [⟨6⟩, ⟨0⟩] ∧ after.table.pool.get? ⟨1⟩ = some left ∧ left.rawName = "_w_struct_97_S" ∧
      term.id = laterUse.tree.root ∧ term.Of laterUse.tree ∧ (term.uses ⟨1⟩).head? = some earliest ∧
      1 < earliest.ancestors.countP laterUse.tree.isBlock := by
  have ends : ((({} : Compiler).runPass .structNames).run.run laterUse).1 = .ok (.ok ()) := by decide +kernel
  have name : ((({} : Compiler).runPass .structNames).run.run laterUse).2.table.pool.items.toList.map Symbol.rawName =
      ["main", "_w_struct_97_S", "a", "g"] := by
    decide +kernel
  have declaration : laterUse.tree.Child ⟨0⟩ ⟨6⟩ := ⟨_, rfl, by decide⟩
  have declarator : laterUse.tree.Child ⟨6⟩ ⟨5⟩ := ⟨_, rfl, by decide⟩
  have used : laterUse.tree.UsesStruct ⟨1⟩ [⟨6⟩, ⟨0⟩] := ⟨⟨5⟩, (Tree.Ancestry.root.child declaration).child declarator, rfl⟩
  generalize compiled : (({} : Compiler).runPass .structNames).run.run laterUse = run at ends name
  obtain ⟨_, after⟩ := run
  obtain rfl := ends
  obtain ⟨term, earliest, left, root, stands, first, found, keeps, _⟩ :=
    structNames_keeps_iff (by decide) compiled rfl used (by decide)
  have renamed : left.rawName = "_w_struct_97_S" := by
    have item : after.table.pool.items[1]? = some left := found
    have known := congrArg (·[1]?) name
    simpa [item] using known
  refine ⟨after, left, term, earliest, rfl, used, found, renamed, root, stands, first, ?_⟩
  by_contra outside
  have kept := keeps.mpr (.inr (.inr (Nat.not_lt.mp outside)))
  rw [renamed] at kept
  exact absurd kept (by decide)

/-- The local structure at `handle` is used, and that inside of functions only: below two blocks at
least. -/
structure UsedInside (space : Workspace) (handle : SymbolHandle) (symbol : Symbol) : Prop where
  found : space.table.pool.get? handle = some symbol
  isLocal : isLocal symbol = true
  used : ∃ above, space.tree.UsesStruct handle above
  inside : ∀ above, space.tree.UsesStruct handle above → 1 < above.countP space.tree.isBlock

/-- Such a structure is called by its old name or by the one given, as it has a name like those given or
not. -/
theorem UsedInside.rawName_named {term : Term} (inside : UsedInside space handle symbol)
    (root : term.id = space.tree.root) (stands : term.Of space.tree) :
    (named symbol (term.uses handle)).rawName = if isLed symbol then symbol.rawName else fresh symbol := by
  obtain ⟨above, used⟩ := inside.used
  obtain ⟨place, member, rfl⟩ := (Term.uses_iff root stands).mp used
  obtain ⟨earliest, rest, uses⟩ := List.exists_cons_of_ne_nil (List.ne_nil_of_mem member)
  have among : earliest ∈ term.uses handle := uses ▸ List.mem_cons_self
  have deep : 1 < earliest.blockDepth := by
    rw [Term.blockDepth_of_uses root stands among]
    exact inside.inside _ ((Term.uses_iff root stands).mpr ⟨earliest, among, rfl⟩)
  cases led : isLed symbol with
  | true => rw [StructNames.named_led led, if_pos rfl]
  | false =>
    rw [uses, named, if_pos ((StructNames.renames_cons _ _ _).mpr ⟨inside.isLocal, led, deep⟩), if_neg (by simp)]

/-- Two local structures used inside of functions only have one name after the pass just if they had one
that is like those given, or one had the name given to the other. -/
theorem structNames_clash_iff (identified : space.table.Identified)
    (ends : (compiler.runPass .structNames).run.run space = (.ok outcome, after)) (differ : one ≠ other)
    (left : UsedInside space one first) (right : UsedInside space other second) :
    ∃ firstAfter secondAfter, after.table.pool.get? one = some firstAfter ∧
      after.table.pool.get? other = some secondAfter ∧
      (firstAfter.rawName = secondAfter.rawName ↔
        isLed first = true ∧ isLed second = true ∧ first.rawName = second.rawName ∨
          isLed second = false ∧ first.rawName = fresh second ∨
          isLed first = false ∧ second.rawName = fresh first) := by
  obtain ⟨term, root, stands, names⟩ := runPass_structNames_names identified ends
  refine ⟨_, _, names one first left.found, names other second right.found, ?_⟩
  rw [left.rawName_named root stands, right.rawName_named root stands]
  have ids : first.id ≠ second.id := fun same => differ (identified.handle_eq left.found right.found same)
  have apart : fresh first ≠ fresh second := fun same => ids (StructNames.id_eq_of_fresh same)
  cases firstLed : isLed first <;> cases secondLed : isLed second
  · have firstNew : first.rawName ≠ fresh second := fun same => by
      cases firstLed.symm.trans (StructNames.isLed_of_rawName same)
    have secondNew : second.rawName ≠ fresh first := fun same => by
      cases secondLed.symm.trans (StructNames.isLed_of_rawName same)
    simp [apart, firstNew, secondNew]
  · simp [eq_comm]
  · simp
  · simp

/-- A function declares variables of two structures, one of them called as the other will be. -/
def givenName : Workspace :=
  let symbol (name : String) (number : Nat) (kind : SymbolKind) : Symbol :=
    { rawName := name, id := ⟨number⟩, origin := .userDefined, kind }
  { tree :=
      { nodes := ⟨#[.block [⟨6⟩], .symbol (.pool ⟨3⟩) (.struct (.pool ⟨1⟩)), .declaration ⟨1⟩ none,
          .symbol (.pool ⟨4⟩) (.struct (.pool ⟨2⟩)), .declaration ⟨3⟩ none, .block [⟨2⟩, ⟨4⟩],
          .definition (.pool ⟨0⟩) ⟨5⟩]⟩
        root := ⟨0⟩ }
    table :=
      { pool := ⟨#[symbol "main" 96 (.function (.new .void false)), symbol "S" 97 (.struct { fields := [] }),
          symbol "_w_struct_97_S" 98 (.struct { fields := [] }), symbol "a" 99 (.var { ty := .struct (.pool ⟨1⟩) }),
          symbol "b" 100 (.var { ty := .struct (.pool ⟨2⟩) })]⟩
        builtIns := {}
        profile := {} } }

namespace givenName

def ways : List (NodeId × List NodeId) :=
  [(⟨0⟩, []), (⟨6⟩, [⟨0⟩]), (⟨5⟩, [⟨6⟩, ⟨0⟩]), (⟨2⟩, [⟨5⟩, ⟨6⟩, ⟨0⟩]), (⟨4⟩, [⟨5⟩, ⟨6⟩, ⟨0⟩]),
    (⟨1⟩, [⟨2⟩, ⟨5⟩, ⟨6⟩, ⟨0⟩]), (⟨3⟩, [⟨4⟩, ⟨5⟩, ⟨6⟩, ⟨0⟩])]

theorem deep (handle : SymbolHandle) (above : List NodeId) (used : givenName.tree.UsesStruct handle above) :
    1 < above.countP givenName.tree.isBlock := by
  obtain ⟨id, ancestry, typed⟩ := used
  have member : (id, above) ∈ ways := ancestry.mem_of_closed (by decide) (by decide)
  have each : ∀ way ∈ ways, ((givenName.tree.nodes.get? way.1).bind structOf?).isSome →
      1 < way.2.countP givenName.tree.isBlock := by
    decide
  exact each _ member (by simp [typed])

/-- The declarations of the function are below its body. -/
theorem uses (handle : SymbolHandle) (declaration declarator : NodeId)
    (stands : declaration ∈ [(⟨2⟩ : NodeId), ⟨4⟩])
    (declares : givenName.tree.nodes.get? declaration = some (.declaration declarator none))
    (typed : (givenName.tree.nodes.get? declarator).bind structOf? = some handle) :
    givenName.tree.UsesStruct handle [declaration, ⟨5⟩, ⟨6⟩, ⟨0⟩] := by
  have function : givenName.tree.Child ⟨0⟩ ⟨6⟩ := ⟨_, rfl, by decide⟩
  have body : givenName.tree.Child ⟨6⟩ ⟨5⟩ := ⟨_, rfl, by decide⟩
  have statement : givenName.tree.Child ⟨5⟩ declaration := ⟨_, rfl, stands⟩
  have declared : givenName.tree.Child declaration declarator := ⟨_, declares, List.mem_singleton_self _⟩
  exact ⟨declarator, (((Tree.Ancestry.root.child function).child body).child statement).child declared, typed⟩

end givenName

theorem structNames_clash_iff_givenName : ∃ (after : Workspace) (firstAfter secondAfter : Symbol),
    (({} : Compiler).runPass .structNames).run.run givenName = (.ok (.ok ()), after) ∧
    after.table.pool.get? ⟨1⟩ = some firstAfter ∧ after.table.pool.get? ⟨2⟩ = some secondAfter ∧
    firstAfter.rawName = secondAfter.rawName := by
  have ends : ((({} : Compiler).runPass .structNames).run.run givenName).1 = .ok (.ok ()) := by decide +kernel
  have identified : givenName.table.Identified := by decide
  have first : UsedInside givenName ⟨1⟩ _ :=
    ⟨rfl, rfl, ⟨_, givenName.uses ⟨1⟩ ⟨2⟩ ⟨1⟩ (by decide) rfl rfl⟩, givenName.deep _⟩
  have second : UsedInside givenName ⟨2⟩ _ :=
    ⟨rfl, rfl, ⟨_, givenName.uses ⟨2⟩ ⟨4⟩ ⟨3⟩ (by decide) rfl rfl⟩, givenName.deep _⟩
  generalize compiled : (({} : Compiler).runPass .structNames).run.run givenName = run at ends
  obtain ⟨_, after⟩ := run
  obtain rfl := ends
  obtain ⟨firstAfter, secondAfter, left, right, clash⟩ :=
    structNames_clash_iff identified compiled (by decide) first second
  exact ⟨after, firstAfter, secondAfter, rfl, left, right, clash.mpr (.inr (.inr ⟨by decide, by decide⟩))⟩
end Compiler
end ShaderTree
