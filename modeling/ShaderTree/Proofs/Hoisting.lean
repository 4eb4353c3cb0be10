import ShaderTree.Proofs.Temporaries

/-! Where scalarization puts the declarations of temporaries. A constructor that the walk
gets to sends its declarations up to the innermost block around it, where they go in front
of the statement that it stands in, and its own place is taken by the new constructor. All
that is moved is new. -/
namespace ShaderTree

namespace Term

/-- The walk of `term` gets to the piece: it does not stand below a constructor that is
scalarized. -/
inductive Exposes : Term → Term → Prop where
  | here {term : Term} : Exposes term term
  | step {id : NodeId} {node : Node} {parts : List Term} {part piece : Term}
      (plain : (mk id node parts).mixes = false) (member : part ∈ parts) (deeper : Exposes part piece) :
      Exposes (mk id node parts) piece

/-- The walk of the statement `term` gets to the piece without entering a block. -/
inductive Keeps : Term → Term → Prop where
  | here {term : Term} : Keeps term term
  | step {id : NodeId} {node : Node} {parts : List Term} {part piece : Term}
      (plain : (mk id node parts).mixes = false) (inner : node.isBlock = false) (member : part ∈ parts)
      (deeper : Keeps part piece) : Keeps (mk id node parts) piece

variable {term part piece : Term}

theorem mixes_of_block (block : term.node.isBlock = true) : term.mixes = false := by
  obtain ⟨id, node, parts⟩ := term
  cases node <;> first | rfl | cases block

theorem Exposes.mem_pieces (exposes : term.Exposes piece) : piece ∈ term.pieces := by
  induction exposes with
  | here => exact mem_pieces_self _
  | step _ member _ ih => exact mem_pieces_of_part member ih

theorem Exposes.trans (first : term.Exposes part) (second : part.Exposes piece) : term.Exposes piece := by
  induction first with
  | here => exact second
  | step plain member _ ih => exact .step plain member (ih second)

theorem Keeps.exposes (keeps : term.Keeps piece) : term.Exposes piece := by
  induction keeps with
  | here => exact .here
  | step plain _ member _ ih => exact .step plain member ih

theorem exposes_or_nested (inside : piece ∈ term.pieces) : term.Exposes piece ∨ term.Nested piece := by
  induction term using induct with
  | step id node parts ih =>
    rcases mem_pieces_iff.mp inside with rfl | ⟨part, member, deeper⟩
    · exact .inl .here
    · cases mixes : (mk id node parts).mixes with
      | true => exact .inr ⟨_, mem_pieces_self _, mixes, part, member, deeper⟩
      | false =>
        rcases ih part member deeper with exposes | nested
        · exact .inl (.step mixes member exposes)
        · exact .inr ((nested_iff mixes).mpr ⟨part, member, nested⟩)

/-- The innermost block around a piece, and the statement of it that the piece stands in. -/
theorem Exposes.innermost (exposes : term.Exposes piece) : term.Keeps piece ∨
    ∃ block statement, term.Exposes block ∧ block.node.isBlock = true ∧ statement ∈ block.parts ∧
      statement.Keeps piece := by
  induction exposes with
  | here => exact .inl .here
  | @step id node parts part piece plain member _ ih =>
    rcases ih with keeps | ⟨block, statement, deeper, rest⟩
    · cases inner : node.isBlock with
      | true => exact .inr ⟨_, part, .here, inner, member, keeps⟩
      | false => exact .inl (.step plain inner member keeps)
    · exact .inr ⟨block, statement, .step plain member deeper, rest⟩

end Term

/-- What the walk makes of one piece, whose new variables have the numbers from `first` up to `last`.
The piece was there before all variables from `low` on. -/
structure Run (pool : Pool) (low : Nat) where
  first : Nat
  last : Nat
  fresh : List NodeId
  term : Term
  result : Rewriting
  scalarizes : Scalarizes pool first [term] fresh [result] last
  high : low ≤ first
  old : term.All (Term.Predates low)

variable {pool : Pool} {low : Nat} {whole run part other : Run pool low} {piece declaration : Term}

/-- The walk of `whole` gets to the piece of `part`. What it makes of it is found in the result, and
the variables made for it occur nowhere else. -/
structure Run.Includes (whole part : Run pool low) : Prop where
  first : whole.first ≤ part.first
  last : part.last ≤ whole.last
  fresh : ∀ id ∈ part.fresh, id ∈ whole.fresh
  result : part.result.term ∈ whole.result.term.pieces
  alone : ∀ symbol ∈ whole.result.pieces, ∀ number, symbol.Names number → part.first ≤ number → number < part.last →
    symbol ∈ part.result.pieces

/-- In the statement of `whole` the walk gets to the constructor of `part`, which sends its
declarations up, in their order. -/
structure Run.Sends (whole part : Run pool low) : Prop extends whole.Includes part where
  keeps : whole.term.Keeps part.term
  mixes : part.term.mixes = true
  moved : ∃ front back, whole.result.moved = front ++ part.result.moved ++ back

structure Run.Contains (block part : Run pool low) : Prop extends block.Includes part where
  member : part.term ∈ block.term.parts
  placed : ∃ front back, block.result.term.parts = front ++ part.result.statements ++ back

/-- Of the statements for a block those that stay are left, where they are told apart from those moved. -/
theorem Rewriting.filter_statements {size : Nat} {results : List Rewriting}
    (stay : ∀ result ∈ results, result.term.id.index < size)
    (moved : ∀ result ∈ results, ∀ declaration ∈ result.moved, size ≤ declaration.id.index) :
    ((results.flatMap statements).map Term.id).filter (fun id => id.index < size) =
      (results.map Rewriting.term).map Term.id := by
  induction results with
  | nil => rfl
  | cons result results ih =>
    have none : (result.moved.map Term.id).filter (fun id => id.index < size) = [] := by
      apply List.filter_eq_nil_iff.mpr
      intro id member
      obtain ⟨declaration, sent, rfl⟩ := List.mem_map.mp member
      simpa using moved result List.mem_cons_self declaration sent
    have rest := ih (fun other member => stay other (List.mem_cons_of_mem _ member))
      (fun other member => moved other (List.mem_cons_of_mem _ member))
    simp [statements, none, rest, stay result List.mem_cons_self]

namespace Scalarizes

variable {first last : Nat} {terms : List Term} {fresh : List NodeId} {results : List Rewriting} {term : Term}
  {result : Rewriting}

theorem length_eq (scalarizes : Scalarizes pool first terms fresh results last) : terms.length = results.length :=
  (scalarizes.rewrites (Nat.le_refl _)).1

theorem uncons (scalarizes : Scalarizes pool first (term :: terms) fresh results last) :
    ∃ result others inside outside between, results = result :: others ∧ fresh = inside ++ outside ∧
      Scalarizes pool first [term] inside [result] between ∧ Scalarizes pool between terms outside others last := by
  cases scalarizes with
  | keep plain inner below rest =>
    exact ⟨_, _, _, _, _, rfl, rfl, by simpa using Scalarizes.keep plain inner below (.nil _), rest⟩
  | block below rest => exact ⟨_, _, _, _, _, rfl, rfl, by simpa using Scalarizes.block below (.nil _), rest⟩
  | split mixed splits rest =>
    exact ⟨_, _, _, _, _, rfl, rfl, by simpa using Scalarizes.split mixed splits (.nil _), rest⟩

/-- The run on a list of pieces has a run on each of them. Its variables occur in what becomes of this
piece only. -/
theorem focus (scalarizes : Scalarizes pool first terms fresh results last) (high : low ≤ first)
    (old : ∀ term ∈ terms, term.All (Term.Predates low)) (pair : (term, result) ∈ terms.zip results) :
    ∃ part : Run pool low, part.term = term ∧ part.result = result ∧ first ≤ part.first ∧ part.last ≤ last ∧
      (∀ id ∈ part.fresh, id ∈ fresh) ∧ ∀ result ∈ results, ∀ symbol ∈ result.pieces, ∀ number,
        symbol.Names number → part.first ≤ number → number < part.last → symbol ∈ part.result.pieces := by
  induction terms generalizing first fresh results with
  | nil => cases pair
  | cons head terms ih =>
    obtain ⟨image, others, inside, outside, between, rfl, rfl, run, rest⟩ := scalarizes.uncons
    have own := old _ List.mem_cons_self
    have later : ∀ term ∈ terms, term.All (Term.Predates low) := fun term member =>
      old term (List.mem_cons_of_mem _ member)
    have below := run.first_le
    have above := rest.first_le
    rcases List.mem_cons.mp pair with same | pair
    · cases same
      refine ⟨⟨first, between, inside, term, result, run, high, own⟩, rfl, rfl, Nat.le_refl _, above,
        fun id member => List.mem_append_left _ member, fun image among symbol inside number names left right => ?_⟩
      rcases List.mem_cons.mp among with rfl | among
      · exact inside
      · have bounds := rest.temporaries later among inside names (Nat.le_trans high left)
        exact absurd right (Nat.not_lt.mpr bounds.1)
    · obtain ⟨part, same, image, start, stop, fresh, alone⟩ := ih rest (Nat.le_trans high below) later pair
      refine ⟨part, same, image, Nat.le_trans below start, stop,
        fun id member => List.mem_append_right _ (fresh id member),
        fun image among symbol inside number names left right => ?_⟩
      rcases List.mem_cons.mp among with rfl | among
      · have single : ∀ term ∈ [head], term.All (Term.Predates low) := List.forall_mem_singleton.mpr own
        have bounds := run.temporaries single List.mem_cons_self inside names (Nat.le_trans part.high left)
        exact absurd bounds.2 (Nat.not_lt.mpr (Nat.le_trans start left))
      · exact alone image among symbol inside number names left right

/-- What is moved is new. -/
theorem moved_fresh (scalarizes : Scalarizes pool first terms fresh results last) (among : result ∈ results)
    (moved : declaration ∈ result.moved) : declaration.id ∈ fresh := by
  induction scalarizes generalizing result with
  | nil => cases among
  | keep _ _ _ _ inside outside =>
    rcases List.mem_cons.mp among with rfl | later
    · obtain ⟨below, member, sent⟩ := List.mem_flatMap.mp moved
      exact List.mem_append_left _ (inside member sent)
    · exact List.mem_append_right _ (outside later moved)
  | block _ _ _ outside =>
    rcases List.mem_cons.mp among with rfl | later
    · cases moved
    · exact List.mem_append_right _ (outside later moved)
  | split _ splits _ outside =>
    rcases List.mem_cons.mp among with rfl | later
    · exact List.mem_append_left _ (splits.declarations_fresh declaration moved).1
    · exact List.mem_append_right _ (outside later moved)

end Scalarizes

namespace Run

theorem Includes.refl (run : Run pool low) : run.Includes run :=
  ⟨Nat.le_refl _, Nat.le_refl _, fun _ member => member, Term.mem_pieces_self _, fun _ inside _ _ _ _ => inside⟩

theorem Includes.trans (outer : whole.Includes run) (inner : run.Includes part) : whole.Includes part := by
  refine ⟨Nat.le_trans outer.first inner.first, Nat.le_trans inner.last outer.last,
    fun id member => outer.fresh id (inner.fresh id member), Term.mem_pieces_trans inner.result outer.result, ?_⟩
  intro symbol inside number names left right
  have own := outer.alone symbol inside number names (Nat.le_trans inner.first left) (Nat.lt_of_lt_of_le right inner.last)
  exact inner.alone symbol own number names left right

structure Below (run : Run pool low) (results : List Rewriting) : Prop where
  scalarizes : Scalarizes pool run.first run.term.parts run.fresh results run.last
  result : run.result = .rebuild run.term.id run.term.node results

theorem exists_below (run : Run pool low) (plain : run.term.mixes = false) : ∃ results, run.Below results := by
  obtain ⟨first, last, fresh, term, result, scalarizes, high, old⟩ := run
  cases scalarizes with
  | keep _ inner below rest =>
    cases rest
    exact ⟨_, by simpa only [Term.parts, List.append_nil] using below, (Rewriting.rebuild_keep inner).symm⟩
  | block below rest =>
    cases rest
    exact ⟨_, by simpa only [Term.parts, List.append_nil] using below, rfl⟩
  | split mixed => exact absurd (plain.symm.trans mixed) Bool.false_ne_true

structure Split (run : Run pool low) (ids : List NodeId) (ty : Ty) (declarations accesses : List Term) : Prop where
  node : run.term.node = .aggregate .construct ids ty
  result : run.result = ⟨declarations, .mk run.term.id (.aggregate .construct (accesses.map Term.id) ty) accesses⟩
  last : run.last = run.first + run.term.parts.length
  splits : Scalarize.Splits pool ty.target ty.components run.first run.term.parts run.fresh declarations accesses

theorem exists_split (run : Run pool low) (mixes : run.term.mixes = true) :
    ∃ ids ty declarations accesses, run.Split ids ty declarations accesses := by
  obtain ⟨first, last, fresh, term, result, scalarizes, high, old⟩ := run
  cases scalarizes with
  | keep plain => exact absurd (plain.symm.trans mixes) Bool.false_ne_true
  | block => cases mixes
  | split mixed splits rest =>
    cases rest
    exact ⟨_, _, _, _, rfl, rfl, rfl, by simpa only [Term.parts, List.append_nil] using splits⟩

/-- The variable of a declaration occurs as its declarator and in the accesses. -/
theorem Split.places {ids : List NodeId} {ty : Ty} {declarations accesses : List Term} {symbol : Term} {number : Nat}
    (split : run.Split ids ty declarations accesses) (member : declaration ∈ declarations)
    (declared : .pool ⟨number⟩ ∈ declaration.declared) (new : low ≤ number) (inside : symbol ∈ run.result.pieces)
    (names : symbol.Names number) :
    symbol ∈ declaration.parts.head? ∨ ∃ access ∈ accesses, symbol ∈ access.pieces := by
  rw [split.result] at inside
  rcases Rewriting.mem_pieces_iff.mp inside with ⟨other, sent, deeper⟩ | inNew
  · obtain ⟨argument, argued, initializes⟩ := split.splits.argument_of_mem sent
    obtain ⟨head, again⟩ := initializes.names (run.old.parts argument argued) deeper names new
    obtain rfl := split.splits.declared_once member sent declared again
    exact .inl head
  · rcases Term.mem_pieces_iff.mp inNew with rfl | inAccess
    · obtain ⟨ty, node⟩ := names
      cases node
    · exact .inr inAccess

/-- The place of a part, in the node that keeps its place. -/
theorem Below.place {results : List Rewriting} {image : Rewriting} (below : run.Below results)
    (pair : (piece, image) ∈ run.term.parts.zip results) :
    ∃ part : Run pool low, part.term = piece ∧ part.result = image ∧ run.Includes part := by
  obtain ⟨part, same, rfl, first, last, fresh, alone⟩ := below.scalarizes.focus run.high run.old.parts pair
  have among : part.result ∈ results := (List.of_mem_zip pair).2
  refine ⟨part, same, rfl, first, last, fresh, ?_, ?_⟩
  · rw [below.result, Rewriting.rebuild]
    split
    · refine Term.mem_pieces_of_part (List.mem_flatMap.mpr ⟨part.result, among, ?_⟩) (Term.mem_pieces_self _)
      exact List.mem_append_right _ List.mem_cons_self
    · exact Term.mem_pieces_of_part (List.mem_map_of_mem among) (Term.mem_pieces_self _)
  · intro symbol inside number names left right
    rw [below.result] at inside
    rcases Rewriting.mem_pieces_rebuild inside with rfl | ⟨image, among, inside⟩
    · have before := run.old.own number (Rewriting.rebuild_names names)
      have := part.high
      omega
    · exact alone image among symbol inside number names left right

theorem Below.exists_part {results : List Rewriting} (below : run.Below results) (member : piece ∈ run.term.parts) :
    ∃ part : Run pool low, part.term = piece ∧ part.result ∈ results ∧ run.Includes part := by
  obtain ⟨image, pair⟩ := exists_right below.scalarizes.length_eq member
  obtain ⟨part, same, rfl, includes⟩ := below.place pair
  exact ⟨part, same, (List.of_mem_zip pair).2, includes⟩

/-- What a constructor in a part sends up goes through the node, unless it is a block. -/
theorem Below.sends {results : List Rewriting} (below : run.Below results) (plain : run.term.mixes = false)
    (inner : run.term.node.isBlock = false) (member : part.term ∈ run.term.parts) (among : part.result ∈ results)
    (includes : run.Includes part) (sends : part.Sends other) : run.Sends other := by
  refine ⟨includes.trans sends.toIncludes, ?_, sends.mixes, ?_⟩
  · obtain ⟨first, last, fresh, ⟨id, node, parts⟩, _⟩ := run
    exact .step plain inner member sends.keeps
  · obtain ⟨front, back, moved⟩ := sends.moved
    obtain ⟨earlier, later, rfl⟩ := List.append_of_mem among
    refine ⟨earlier.flatMap Rewriting.moved ++ front, back ++ later.flatMap Rewriting.moved, ?_⟩
    rw [below.result, Rewriting.rebuild_keep inner]
    simp only [List.flatMap_append, List.flatMap_cons, moved, List.append_assoc]

/-- What the walk gets to has a run of its own. -/
theorem exists_of_exposes (run : Run pool low) (exposes : run.term.Exposes piece) :
    ∃ part : Run pool low, part.term = piece ∧ run.Includes part := by
  generalize same : run.term = term at exposes
  induction exposes generalizing run with
  | here => exact ⟨run, same, .refl run⟩
  | step plain member _ ih =>
    rw [← same] at plain
    obtain ⟨results, below⟩ := run.exists_below plain
    obtain ⟨part, at_part, _, includes⟩ := below.exists_part (by rw [same]; exact member)
    obtain ⟨image, found, deeper⟩ := ih part at_part
    exact ⟨image, found, includes.trans deeper⟩

/-- Every constructor that the walk gets to in a statement sends its declarations up. -/
theorem exists_sends_of_keeps (run : Run pool low) (keeps : run.term.Keeps piece) (mixes : piece.mixes = true) :
    ∃ part : Run pool low, part.term = piece ∧ run.Sends part := by
  generalize same : run.term = term at keeps
  induction keeps generalizing run with
  | here =>
    refine ⟨run, same, .refl run, .here, ?_, [], [], by simp⟩
    rw [same]
    exact mixes
  | @step id node parts _ _ plain inner member _ ih =>
    have parts : run.term.parts = parts := by rw [same]; rfl
    have node : run.term.node = node := by rw [same]; rfl
    rw [← same] at plain
    rw [← node] at inner
    obtain ⟨results, below⟩ := run.exists_below plain
    obtain ⟨part, rfl, among, includes⟩ := below.exists_part (by rw [parts]; exact member)
    obtain ⟨image, found, sends⟩ := ih part mixes rfl
    exact ⟨image, found, below.sends plain inner (by rw [parts]; exact member) among includes sends⟩

/-- Every declaration that goes in front of a statement is sent up by a constructor. -/
theorem exists_sends_of_moved (run : Run pool low) (moved : declaration ∈ run.result.moved) :
    ∃ part : Run pool low, run.Sends part ∧ declaration ∈ part.result.moved := by
  generalize same : run.term = term
  induction term using Term.induct generalizing run with
  | step id node parts ih =>
    have parts : run.term.parts = parts := by rw [same]; rfl
    cases mixes : run.term.mixes with
    | true => exact ⟨run, ⟨.refl run, .here, mixes, [], [], by simp⟩, moved⟩
    | false =>
      obtain ⟨results, below⟩ := run.exists_below mixes
      cases inner : run.term.node.isBlock with
      | true =>
        rw [below.result, Rewriting.rebuild, inner] at moved
        cases moved
      | false =>
        rw [below.result, Rewriting.rebuild_keep inner] at moved
        obtain ⟨image, among, moved⟩ := List.mem_flatMap.mp moved
        obtain ⟨piece, pair⟩ := exists_left below.scalarizes.length_eq among
        obtain ⟨part, rfl, rfl, includes⟩ := below.place pair
        have member := (List.of_mem_zip pair).1
        obtain ⟨sender, sends, own⟩ := ih part.term (by rw [← parts]; exact member) part moved rfl
        exact ⟨sender, below.sends mixes inner member among includes sends, own⟩

theorem id_eq (run : Run pool low) : run.result.term.id = run.term.id :=
  List.singleton_inj.mp run.scalarizes.ids

theorem moved_fresh (run : Run pool low) (moved : declaration ∈ run.result.moved) : declaration.id ∈ run.fresh :=
  run.scalarizes.moved_fresh List.mem_cons_self moved

/-- What becomes of a block. -/
theorem exists_statements (run : Run pool low) (block : run.term.node.isBlock = true) :
    ∃ results, run.Below results ∧
      run.result.term = .mk run.term.id (.block ((results.flatMap Rewriting.statements).map Term.id))
        (results.flatMap Rewriting.statements) := by
  obtain ⟨results, below⟩ := run.exists_below (Term.mixes_of_block block)
  refine ⟨results, below, ?_⟩
  rw [below.result, Rewriting.rebuild, block]
  rfl

theorem Below.contains {results : List Rewriting} (below : run.Below results)
    (image : run.result.term.parts = results.flatMap Rewriting.statements) (includes : run.Includes part)
    (member : part.term ∈ run.term.parts) (among : part.result ∈ results) : run.Contains part := by
  obtain ⟨earlier, later, rfl⟩ := List.append_of_mem among
  refine ⟨includes, member, earlier.flatMap Rewriting.statements, later.flatMap Rewriting.statements, ?_⟩
  rw [image, List.flatMap_append, List.flatMap_cons, List.append_assoc]

theorem exists_contains (run : Run pool low) (block : run.term.node.isBlock = true) (member : piece ∈ run.term.parts) :
    ∃ part : Run pool low, part.term = piece ∧ run.Contains part := by
  obtain ⟨results, below, image⟩ := run.exists_statements block
  obtain ⟨part, rfl, among, includes⟩ := below.exists_part member
  exact ⟨part, rfl, below.contains (congrArg Term.parts image) includes member among⟩

/-- Every statement of the new block is an old one or is sent up from an old one. -/
theorem exists_contains_of_new (run : Run pool low) (block : run.term.node.isBlock = true)
    (member : piece ∈ run.result.term.parts) :
    ∃ part : Run pool low, run.Contains part ∧ piece ∈ part.result.statements := by
  obtain ⟨results, below, image⟩ := run.exists_statements block
  rw [image] at member
  obtain ⟨result, among, sent⟩ := List.mem_flatMap.mp member
  obtain ⟨statement, pair⟩ := exists_left below.scalarizes.length_eq among
  obtain ⟨part, rfl, rfl, includes⟩ := below.place pair
  exact ⟨part, below.contains (congrArg Term.parts image) includes (List.of_mem_zip pair).1 among, sent⟩

/-- The new block has the old statements in their order, and new ones. -/
theorem statements_filter (run : Run pool low) {size : Nat} (block : run.term.node.isBlock = true)
    (before : ∀ part ∈ run.term.parts, part.id.index < size) (new : ∀ id ∈ run.fresh, size ≤ id.index) :
    (run.result.term.parts.map Term.id).filter (fun id => id.index < size) = run.term.parts.map Term.id := by
  obtain ⟨results, below, image⟩ := run.exists_statements block
  have stay : ∀ result ∈ results, result.term.id.index < size := by
    intro result among
    have inside : result.term.id ∈ (results.map Rewriting.term).map Term.id :=
      List.mem_map_of_mem (List.mem_map_of_mem among)
    rw [below.scalarizes.ids] at inside
    obtain ⟨part, member, same⟩ := List.mem_map.mp inside
    rw [← same]
    exact before part member
  have moved : ∀ result ∈ results, ∀ declaration ∈ result.moved, size ≤ declaration.id.index :=
    fun result among declaration sent => new _ (below.scalarizes.moved_fresh among sent)
  rw [image, ← below.scalarizes.ids]
  exact Rewriting.filter_statements stay moved

end Run

end ShaderTree
