import Mathlib.Data.List.Pairwise
import ShaderTree.Proofs.Unscalarized

/-! The temporaries that scalarization makes, by their numbers. The numbers of one run make
a range, each argument has the next number of it, and the variable of that number occurs in
the declaration that it is made for and in the new arguments of the constructor only. -/
namespace ShaderTree

namespace Term

def Names (term : Term) (number : Nat) : Prop := ∃ ty, term.node = .symbol (.pool ⟨number⟩) ty

def Predates (low : Nat) (term : Term) : Prop := ∀ number, term.Names number → number < low

end Term

variable {pool : Pool} {low first last number : Nat} {term piece symbol access declaration : Term}

/-- What is known of the program was there before what is not. -/
theorem Term.Resolves.predates {table : SymbolTable} (known : term.Resolves table) : term.Predates table.pool.size := by
  rintro number ⟨ty, node⟩
  have member : SymbolRef.pool ⟨number⟩ ∈ term.node.symbol? := by
    rw [node]
    rfl
  obtain ⟨symbol, resolved⟩ := known.symbol _ member
  exact Arena.get?_eq_some_lt (Arena.read_eq_ok.mp resolved)

theorem Term.All.not_names (old : term.All (Term.Predates low)) (inside : symbol ∈ term.pieces)
    (names : symbol.Names number) : number < low := (old.of_mem_pieces inside).own number names

theorem Access.names {handle : SymbolHandle} {ty element : Ty} {path : List Nat}
    (isAccess : Access handle ty path element access) (inside : symbol ∈ access.pieces) (names : symbol.Names number) :
    number = handle.index := by
  obtain ⟨other, own⟩ := names
  rcases isAccess.of_mem_pieces inside with node | ⟨base, position, type, node⟩ | ⟨values, node⟩
  · cases own.symm.trans node
    rfl
  · cases own.symm.trans node
  · cases own.symm.trans node

namespace Scalarize

/-- The declaration sets a temporary with a number of the range to the argument. -/
def Initializes (pool : Pool) (first last : Nat) (declaration argument : Term) : Prop :=
  ∃ id declarator number ty, declaration = .initialization id declarator ⟨number⟩ ty argument ∧
    first ≤ number ∧ number < last ∧ argument.ty? = some ty ∧ IsTemporary pool ⟨number⟩ ty

namespace Initializes

variable {argument : Term}

theorem widen {start stop : Nat} (initializes : Initializes pool start stop declaration argument)
    (below : first ≤ start) (above : stop ≤ last) : Initializes pool first last declaration argument := by
  obtain ⟨id, declarator, number, ty, same, left, right, rest⟩ := initializes
  exact ⟨id, declarator, number, ty, same, by omega, by omega, rest⟩

/-- The temporary of a declaration occurs as its declarator. -/
theorem names (initializes : Initializes pool first last declaration argument)
    (old : argument.All (Term.Predates low)) (inside : symbol ∈ declaration.pieces) (names : symbol.Names number)
    (new : low ≤ number) : symbol ∈ declaration.parts.head? ∧ .pool ⟨number⟩ ∈ declaration.declared := by
  obtain ⟨id, declarator, own, ty, rfl, _⟩ := initializes
  rcases Term.mem_pieces_iff.mp inside with rfl | ⟨part, member, deeper⟩
  · obtain ⟨other, node⟩ := names
    cases node
  · rcases List.mem_pair.mp member with rfl | rfl
    · rcases Term.mem_pieces_iff.mp deeper with rfl | ⟨part, none, _⟩
      · obtain ⟨other, node⟩ := names
        cases node
        exact ⟨rfl, List.mem_cons_self⟩
      · cases none
    · exact absurd new (Nat.not_le.mpr (old.not_names deeper names))

end Initializes

namespace Splits

variable {target : Target} {needed : Nat} {arguments declarations accesses : List Term} {fresh : List NodeId}

/-- The declarations go with the arguments, one by one. -/
theorem each (splits : Splits pool target needed first arguments fresh declarations accesses) :
    List.Forall₂ (Initializes pool first (first + arguments.length)) declarations arguments := by
  induction splits with
  | nil => exact .nil
  | cons typed has positive temporary selected rest ih =>
    rw [List.length_cons]
    refine .cons ⟨_, _, _, _, rfl, Nat.le_refl _, by omega, typed, temporary⟩ (ih.imp fun declaration argument later => ?_)
    exact later.widen (by omega) (by omega)

theorem argument_of_mem (splits : Splits pool target needed first arguments fresh declarations accesses)
    (member : declaration ∈ declarations) :
    ∃ argument ∈ arguments, Initializes pool first (first + arguments.length) declaration argument := by
  have each := splits.each
  obtain ⟨argument, pair⟩ := exists_right each.length_eq member
  exact ⟨argument, (List.of_mem_zip pair).2, List.forall₂_zip each pair⟩

/-- No two declarations are of the same variable. -/
theorem declared_once (splits : Splits pool target needed first arguments fresh declarations accesses)
    {one other : Term} (left : one ∈ declarations) (right : other ∈ declarations) (inOne : ref ∈ one.declared)
    (inOther : ref ∈ other.declared) : one = other := by
  have nodup : (declarations.flatMap Term.declared).Nodup := by
    rw [splits.declared]
    refine List.Nodup.map_on ?_ List.nodup_range'
    rintro number _ other _ ⟨⟩
    rfl
  have symmetric : Std.Symm (Function.onFun List.Disjoint Term.declared) := ⟨fun _ _ apart _ left right => apart right left⟩
  by_contra different
  exact (List.nodup_flatMap.mp nodup).2.forall left right different inOne inOther

end Splits
end Scalarize

namespace Rewriting

def pieces (result : Rewriting) : List Term := result.statements.flatMap Term.pieces

def rebuild (id : NodeId) (node : Node) (results : List Rewriting) : Rewriting :=
  if node.isBlock then
    let statements := results.flatMap statements
    ⟨[], .mk id (.block (statements.map Term.id)) statements⟩
  else ⟨results.flatMap moved, .mk id node (results.map Rewriting.term)⟩

variable {id : NodeId} {node : Node} {results : List Rewriting} {result : Rewriting}

theorem rebuild_keep (inner : node.isBlock = false) :
    rebuild id node results = ⟨results.flatMap moved, .mk id node (results.map Rewriting.term)⟩ := by
  rw [rebuild, inner]
  rfl

theorem mem_pieces_iff :
    piece ∈ result.pieces ↔ (∃ declaration ∈ result.moved, piece ∈ declaration.pieces) ∨ piece ∈ result.term.pieces := by
  rw [pieces, statements, List.flatMap_append, List.mem_append, List.mem_flatMap, List.flatMap_singleton]

/-- The pieces are the node itself and those that its parts become. -/
theorem mem_pieces_rebuild (inside : piece ∈ (rebuild id node results).pieces) :
    piece = (rebuild id node results).term ∨ ∃ result ∈ results, piece ∈ result.pieces := by
  cases block : node.isBlock with
  | true =>
    simp only [rebuild, block, if_true] at inside ⊢
    rcases mem_pieces_iff.mp inside with ⟨_, none, _⟩ | inside
    · cases none
    · refine (Term.mem_pieces_iff.mp inside).imp_right ?_
      rintro ⟨statement, member, deeper⟩
      obtain ⟨result, among, sent⟩ := List.mem_flatMap.mp member
      exact ⟨result, among, List.mem_flatMap.mpr ⟨statement, sent, deeper⟩⟩
  | false =>
    rw [rebuild_keep block] at inside ⊢
    rcases mem_pieces_iff.mp inside with ⟨declaration, member, deeper⟩ | inside
    · obtain ⟨result, among, sent⟩ := List.mem_flatMap.mp member
      exact .inr ⟨result, among, mem_pieces_iff.mpr (.inl ⟨declaration, sent, deeper⟩)⟩
    · refine (Term.mem_pieces_iff.mp inside).imp_right ?_
      rintro ⟨part, member, deeper⟩
      obtain ⟨result, among, rfl⟩ := List.mem_map.mp member
      exact ⟨result, among, mem_pieces_iff.mpr (.inr deeper)⟩

/-- The node itself names what it named before. -/
theorem rebuild_names (names : (rebuild id node results).term.Names number) : ∃ ty, node = .symbol (.pool ⟨number⟩) ty := by
  obtain ⟨ty, same⟩ := names
  cases node with
  | block ids => cases same
  | _ => exact ⟨ty, same⟩

end Rewriting

namespace Scalarize

/-- A piece that scalarization makes: the declaration of a temporary, or part of an access to one. Its
name alone is the access that takes no part of it. -/
inductive Made (first last : Nat) (fresh : List NodeId) (piece : Term) : Prop where
  | declaration (own : piece.id ∈ fresh) (node : piece.node = .declaration declarator value)
  | access {number : Nat} {access : Term} (own : piece.id ∈ fresh) (isAccess : Access ⟨number⟩ ty path element access)
      (inside : piece ∈ access.pieces) (left : first ≤ number) (right : number < last)

inductive Reforms : Node → Node → Prop where
  | same : Reforms node node
  | block : Reforms (.block statements) (.block others)
  | construct : Reforms (.aggregate .construct arguments ty) (.aggregate .construct uses ty)

theorem Made.widen {start stop : Nat} {fresh more : List NodeId} (made : Made start stop fresh piece) (below : first ≤ start)
    (above : stop ≤ last) (among : fresh ⊆ more) : Made first last more piece := by
  cases made with
  | declaration own node => exact .declaration (among own) node
  | access own isAccess inside left right => exact .access (among own) isAccess inside (by omega) (by omega)

/-- What the declarations are made of is new or below an argument. -/
theorem Splits.declaration_made {target : Target} {needed : Nat} {arguments declarations accesses : List Term} {fresh : List NodeId}
    (splits : Splits pool target needed first arguments fresh declarations accesses) (member : declaration ∈ declarations)
    (inside : piece ∈ declaration.pieces) :
    Made first (first + arguments.length) fresh piece ∨ ∃ argument ∈ arguments, piece ∈ argument.pieces := by
  obtain ⟨argument, argued, initializes⟩ := splits.argument_of_mem member
  have new := splits.declarations_fresh declaration member
  obtain ⟨own, declarator, number, type, rfl, left, right, _⟩ := initializes
  rcases Term.mem_pieces_iff.mp inside with rfl | ⟨part, held, within⟩
  · exact .inl (.declaration new.1 rfl)
  · rcases List.mem_pair.mp held with rfl | rfl
    · refine .inl (.access (new.2 _ rfl _ ?_) (Access.nil_iff.mpr ⟨rfl, declarator, rfl⟩) within left right)
      rw [Term.ids_eq_pieces]
      exact List.mem_map_of_mem within
    · exact .inr ⟨part, argued, within⟩

theorem Splits.access_made {target : Target} {needed : Nat} {arguments declarations accesses : List Term} {fresh : List NodeId}
    (splits : Splits pool target needed first arguments fresh declarations accesses) (member : access ∈ accesses)
    (inside : piece ∈ access.pieces) : Made first (first + arguments.length) fresh piece := by
  obtain ⟨handle, type, path, element, isAccess, left, right, _⟩ := splits.access_of_mem member
  refine .access (splits.accesses_fresh access member piece.id ?_) isAccess inside left right
  rw [Term.ids_eq_pieces]
  exact List.mem_map_of_mem inside

end Scalarize

/-- What becomes of the pieces consists of what the pass makes and of what was there before. -/
theorem Scalarizes.origin {terms : List Term} {fresh : List NodeId} {results : List Rewriting} {result : Rewriting}
    (scalarizes : Scalarizes pool first terms fresh results last) (among : result ∈ results) (inside : piece ∈ result.pieces) :
    Scalarize.Made first last fresh piece ∨
      ∃ term ∈ terms, ∃ old ∈ term.pieces, old.id = piece.id ∧ Scalarize.Reforms old.node piece.node := by
  -- A piece of a part, of the first node or of the others, in what the whole run makes.
  have above {first between last : Nat} {fresh more : List NodeId} {id : NodeId} {node : Node} {parts terms : List Term}
      (bound : between ≤ last)
      (found : Scalarize.Made first between fresh piece ∨
        ∃ term ∈ parts, ∃ old ∈ term.pieces, old.id = piece.id ∧ Scalarize.Reforms old.node piece.node) :
      Scalarize.Made first last (fresh ++ more) piece ∨
        ∃ term ∈ .mk id node parts :: terms, ∃ old ∈ term.pieces, old.id = piece.id ∧ Scalarize.Reforms old.node piece.node := by
    refine found.imp (fun made => made.widen (Nat.le_refl _) bound (List.subset_append_left _ _)) ?_
    rintro ⟨part, held, old, within, same⟩
    exact ⟨_, List.mem_cons_self, old, Term.mem_pieces_of_part held within, same⟩
  have beside {first between last : Nat} {fresh more : List NodeId} {term : Term} {terms : List Term}
      (bound : first ≤ between)
      (found : Scalarize.Made between last more piece ∨
        ∃ term ∈ terms, ∃ old ∈ term.pieces, old.id = piece.id ∧ Scalarize.Reforms old.node piece.node) :
      Scalarize.Made first last (fresh ++ more) piece ∨
        ∃ other ∈ term :: terms, ∃ old ∈ other.pieces, old.id = piece.id ∧ Scalarize.Reforms old.node piece.node := by
    refine found.imp (fun made => made.widen bound (Nat.le_refl _) (List.subset_append_right _ _)) ?_
    rintro ⟨other, held, found⟩
    exact ⟨other, List.mem_cons_of_mem _ held, found⟩
  induction scalarizes generalizing result with
  | nil => cases among
  | @keep _ _ _ id node parts _ _ _ results _ plain inner below rest ih later =>
    rcases List.mem_cons.mp among with rfl | among
    · rw [← Rewriting.rebuild_keep inner] at inside
      rcases Rewriting.mem_pieces_rebuild inside with rfl | ⟨image, member, deeper⟩
      · rw [Rewriting.rebuild_keep inner]
        exact .inr ⟨_, List.mem_cons_self, _, Term.mem_pieces_self _, rfl, .same⟩
      · exact above rest.first_le (ih member deeper)
    · exact beside below.first_le (later among inside)
  | @block _ _ _ id ids parts _ _ _ results _ below rest ih later =>
    rcases List.mem_cons.mp among with rfl | among
    · have whole : piece ∈ (Rewriting.rebuild id (.block ids) results).pieces := inside
      rcases Rewriting.mem_pieces_rebuild whole with rfl | ⟨image, member, deeper⟩
      · exact .inr ⟨_, List.mem_cons_self, _, Term.mem_pieces_self _, rfl, .block⟩
      · exact above rest.first_le (ih member deeper)
    · exact beside below.first_le (later among inside)
  | @split _ _ id ids ty arguments _ _ _ declarations accesses _ mixed splits rest later =>
    rcases List.mem_cons.mp among with rfl | among
    · rcases Rewriting.mem_pieces_iff.mp inside with ⟨declaration, member, deeper⟩ | inNew
      · refine above rest.first_le ((splits.declaration_made member deeper).imp_right ?_)
        rintro ⟨argument, argued, within⟩
        exact ⟨argument, argued, piece, within, rfl, .same⟩
      · rcases Term.mem_pieces_iff.mp inNew with rfl | ⟨access, used, deeper⟩
        · exact .inr ⟨_, List.mem_cons_self, _, Term.mem_pieces_self _, rfl, .construct⟩
        · exact above rest.first_le (.inl (splits.access_made used deeper))
    · exact beside (Nat.le_add_right _ _) (later among inside)

/-- The new variables that occur in what becomes of the pieces have their numbers in the range of the
run. -/
theorem Scalarizes.temporaries {terms : List Term} {fresh : List NodeId} {results : List Rewriting} {result : Rewriting}
    (scalarizes : Scalarizes pool first terms fresh results last) (old : ∀ term ∈ terms, term.All (Term.Predates low))
    (among : result ∈ results) (inside : symbol ∈ result.pieces) (names : symbol.Names number) (new : low ≤ number) :
    first ≤ number ∧ number < last := by
  rcases scalarizes.origin among inside with made | ⟨term, held, before, within, _, reforms⟩
  · cases made with
    | declaration _ node =>
      obtain ⟨ty, other⟩ := names
      cases node.symm.trans other
    | access _ isAccess inside left right =>
      obtain rfl := isAccess.names inside names
      exact ⟨left, right⟩
  · obtain ⟨ty, node⟩ := names
    rw [node] at reforms
    have named : before.Names number := by
      generalize same : before.node = other at reforms
      cases reforms
      exact ⟨ty, same⟩
    have := (old term held).not_names within named
    omega

end ShaderTree
