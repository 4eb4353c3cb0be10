import ShaderTree.Proofs.Splicing

/-! Walks of trees without sharing by visitors that leave the nodes that there are as they are. All
that such a walk changes are the blocks that statements are inserted into, so that what is below the
next child is still there when the walk comes to it. -/
namespace ShaderTree

namespace Walk

variable {visitor : Visitor σ} {tree : Tree} {site place : Site} {id owner : NodeId} {term : Term}
  {parts : List Term} {before after : WalkState σ} {visits : List (Visit σ)}

namespace Asks

variable {wanted : Bool} {moment : Moment} {answer : Except Fault Bool}

theorem extends_nodes (asks : Asks visitor wanted moment site id before visits answer after)
    (adds : ∀ visit ∈ visits, visit.Adds) : before.space.tree.nodes.Extends after.space.tree.nodes := by
  cases asks with
  | visit => exact (adds _ (List.mem_singleton_self _)).appends
  | _ => exact .refl _

/-- A visit at `site` inserts into the innermost block around `site`. -/
theorem rebuilt_put (asks : Asks visitor wanted moment site id before visits answer after)
    (adds : ∀ visit ∈ visits, visit.Adds) (tree : Tree) :
    after.rebuilt.toList = before.rebuilt.toList ++ put tree (site.block? tree) visits := by
  have all : visits.filter (·.site.block? tree = site.block? tree) = visits := by
    refine List.filter_eq_self.mpr fun visit member => decide_eq_true ?_
    rw [(asks.visits_eq visit member).2.1]
  rw [put, all]
  exact asks.rebuilt_eq fun visit member => (adds visit member).inserts

theorem not_touches (asks : Asks visitor wanted moment place owner before visits answer after) (other : id ≠ owner)
    (outside : place.block? tree ≠ some id) : ∀ visit ∈ visits, ¬ visit.Touches tree id := by
  intro visit member
  obtain ⟨_, stands, same⟩ := asks.visits_eq visit member
  rintro (inserts | ⟨_, own⟩)
  · exact outside (stands ▸ inserts)
  · exact other (own.symm.trans same)

/-- A visit of a node with children is not refused. -/
theorem faults {fault : Fault} {node : Node} (asks : Asks visitor wanted moment site id before visits (.error fault) after)
    (found : before.space.tree.nodes.get? id = some node) (inner : node.isLeaf = false) :
    ∃ visit ∈ visits, visit.answer = .error fault := by
  cases asks with
  | visit => exact ⟨_, List.mem_singleton_self _, rfl⟩
  | refuse _ gone =>
    rw [gone node found] at inner
    cases inner

end Asks

namespace Visit.Within

variable {visit : Visit σ}

/-- The innermost block around a visit below `term` is in it, or around it. -/
theorem block?_eq (within : visit.Within site term) (tree : Tree) : visit.site.block? tree = site.block? tree ∨
    ∃ block ∈ term.ids, visit.site.block? tree = some block := by
  obtain ⟨inner, ancestors, pieces, _⟩ := within.entered
  simp only [Site.block?, ancestors, List.find?_append]
  cases deeper : (inner.map Term.id).find? tree.isBlock with
  | none => exact .inl rfl
  | some block =>
    refine .inr ⟨block, ?_, rfl⟩
    obtain ⟨part, among, rfl⟩ := List.mem_map.mp (List.mem_of_find?_eq_some deeper)
    exact Term.mem_ids_of_piece (pieces part among)

/-- What is inserted into a block around `term` is inserted while `term` is walked. -/
theorem statement_eq {block : NodeId} {outer : List NodeId} (within : visit.Within site term)
    (ancestors : site.ancestors = block :: outer) (isBlock : tree.isBlock block = true) (apart : block ∉ term.ids)
    (inserts : visit.site.block? tree = some block) : visit.site.statement tree visit.id = term.id := by
  obtain ⟨inner, around, pieces, last⟩ := within.entered
  rw [ancestors] at around
  have plain : ∀ other ∈ inner.map Term.id, (!tree.isBlock other) = true := by
    simp only [Site.block?, around, List.find?_append] at inserts
    cases deeper : (inner.map Term.id).find? tree.isBlock with
    | none => simpa using deeper
    | some other =>
      rw [deeper] at inserts
      obtain rfl : other = block := Option.some.inj inserts
      obtain ⟨part, among, rfl⟩ := List.mem_map.mp (List.mem_of_find?_eq_some deeper)
      exact absurd (Term.mem_ids_of_piece (pieces part among)) apart
  rw [Site.statement, around, List.takeWhile_append_of_pos plain, List.takeWhile_cons_of_neg (by simp [isBlock]),
    List.append_nil]
  exact last

end Visit.Within

/-- What a walk of `term` does to the nodes. `tree` is the tree as it was at the start. -/
structure Leg (tree : Tree) (site : Site) (term : Term) (before : WalkState σ) (visits : List (Visit σ))
    (result : Except Fault Unit) (after : WalkState σ) : Prop where
  keeps : before.space.tree.Keeps term.ids after.space.tree
  within : ∀ visit ∈ visits, visit.Within site term
  faults : ∀ fault, result = .error fault → ∃ visit ∈ visits, visit.answer = .error fault
  spliced : result = .ok () → ∀ piece ∈ term.pieces, Spliced tree visits piece.id piece.node after.space.tree

structure Toured (tree : Tree) (site : Site) (term : Term) (before : WalkState σ) (visits : List (Visit σ))
    (result : Except Fault Unit) (after : WalkState σ) : Prop extends Leg tree site term before visits result after where
  rebuilt : result = .ok () →
    after.rebuilt.toList = before.rebuilt.toList ++ put tree (site.block? tree) visits

theorem Emits.leg {result : Except Fault Unit}
    (emits : Emits (Toured tree site term) id before visits result after) :
    Leg tree site term before visits result after := by
  cases emits with
  | done walked => exact ⟨walked.keeps, walked.within, by simp, fun _ => walked.spliced rfl⟩
  | fault walked => exact walked.toLeg

/-- The walks of the children of a node are walks of its parts, each of which is still there when the
walk comes to it. -/
theorem Row.stand {child : NodeId → Effect σ Unit} {leg : Term → Effect σ Unit} {first : Bool}
    {result : Except Fault (List NodeId)} (adds : ∀ visit ∈ visits, visit.Adds)
    (row : Row visitor child place owner first (parts.map Term.id) before visits result after)
    (walks : ∀ part ∈ parts, ∀ before visits result after, part.Of before.space.tree →
      (∀ visit ∈ visits, visit.Adds) → child part.id before visits result after → leg part before visits result after)
    (keeps : ∀ part ∈ parts, ∀ before visits result after, leg part before visits result after →
      before.space.tree.Keeps part.ids after.space.tree)
    (stand : ∀ part ∈ parts, part.Of before.space.tree) (nodup : (parts.flatMap Term.ids).Nodup) :
    ∃ left, result = left.map (·.map Term.id) ∧ Row visitor leg place owner first parts before visits left after := by
  induction parts generalizing first before visits with
  | nil =>
    cases row with
    | done => exact ⟨.ok [], rfl, .done⟩
  | cons part rest ih =>
    rw [List.map_cons] at row
    have opened {gap : List (Visit σ)} {answer : Except Fault Bool} {between : WalkState σ}
        (asked : Asks visitor (!first && visitor.visits.between) .between place owner before gap answer between)
        (adds : ∀ visit ∈ gap, visit.Adds) : ∀ other ∈ part :: rest, other.Of between.space.tree :=
      fun other member => (stand other member).mono (asked.extends_nodes adds)
    cases row with
    | stop asked => exact ⟨.ok (part :: rest), rfl, .stop asked⟩
    | refuse asked => exact ⟨.error _, rfl, .refuse asked⟩
    | fault asked walked =>
      obtain ⟨addsGap, adds⟩ := List.forall_mem_append.mp adds
      have standing := opened asked addsGap part List.mem_cons_self
      exact ⟨.error _, rfl, .fault asked (walks part List.mem_cons_self _ _ _ _ standing adds walked)⟩
    | @next _ _ _ _ between further _ _ _ _ _ asked walked row =>
      obtain ⟨addsGap, adds⟩ := List.forall_mem_append.mp adds
      obtain ⟨adds, addsLater⟩ := List.forall_mem_append.mp adds
      have opened := opened asked addsGap
      have walked := walks part List.mem_cons_self _ _ _ _ (opened part List.mem_cons_self) adds walked
      rw [List.flatMap_cons, List.nodup_append] at nodup
      -- the walk of a part changes blocks of that part only, which are in no other part
      have standing : ∀ other ∈ rest, other.Of further.space.tree := fun other member =>
        (keeps part List.mem_cons_self _ _ _ _ walked).of (opened other (List.mem_cons_of_mem _ member))
          fun id inside own => nodup.2.2 id own id (List.mem_flatMap.mpr ⟨other, member, inside⟩) rfl
      obtain ⟨left, same, rows⟩ := ih addsLater row (fun other member => walks other (List.mem_cons_of_mem _ member))
        (fun other member => keeps other (List.mem_cons_of_mem _ member)) standing nodup.2.1
      exact ⟨left, same, .next asked walked rows⟩

theorem Visit.Within.mem_of_touches {visit : Visit σ} (within : visit.Within site term)
    (touches : visit.Touches tree id) : id ∈ term.ids ∨ site.block? tree = some id := by
  rcases touches with inserts | ⟨_, same⟩
  · rcases within.block?_eq tree with around | ⟨block, inside, same⟩
    · exact .inr (around.symm.trans inserts)
    · obtain rfl := Option.some.inj (same.symm.trans inserts)
      exact .inl inside
  · exact .inl (same ▸ within.id_mem)

def Visit.Among (place : Site) (owner : NodeId) (parts : List Term) (visit : Visit σ) : Prop :=
  (visit.moment = .between ∧ visit.site = place ∧ visit.id = owner) ∨ ∃ part ∈ parts, visit.Within place part

theorem Visit.Among.mono {visit : Visit σ} {others : List Term} (among : visit.Among place owner parts)
    (wider : parts ⊆ others) : visit.Among place owner others :=
  among.imp_right fun ⟨part, member, within⟩ => ⟨part, wider member, within⟩

structure Legs (tree : Tree) (place : Site) (owner : NodeId) (parts : List Term) (before : WalkState σ)
    (visits : List (Visit σ)) (result : Except Fault (List Term)) (after : WalkState σ) : Prop where
  keeps : before.space.tree.Keeps (parts.flatMap Term.ids) after.space.tree
  among : ∀ visit ∈ visits, visit.Among place owner parts
  faults : ∀ fault, result = .error fault → ∃ visit ∈ visits, visit.answer = .error fault
  spliced : ∀ left, result = .ok left → ∀ part ∈ parts, ∀ piece ∈ part.pieces,
    Spliced tree visits piece.id piece.node after.space.tree

theorem Legs.not_touches {result : Except Fault (List Term)}
    (legs : Legs tree place owner parts before visits result after) (differs : id ≠ owner)
    (outside : place.block? tree ≠ some id) (apart : id ∉ parts.flatMap Term.ids) :
    ∀ visit ∈ visits, ¬ visit.Touches tree id := by
  intro visit member touches
  rcases legs.among visit member with ⟨_, stands, same⟩ | ⟨part, among, within⟩
  · rcases touches with inserts | ⟨_, own⟩
    · exact outside (stands ▸ inserts)
    · exact differs (own.symm.trans same)
  · rcases within.mem_of_touches touches with inside | around
    · exact apart (List.mem_flatMap.mpr ⟨part, among, inside⟩)
    · exact outside around

/-- The walk of a first child, and those of the others after it. -/
theorem Legs.cons {wanted : Bool} {part : Term} {rest : List Term} {between further : WalkState σ}
    {gap others : List (Visit σ)} {result : Except Fault (List Term)}
    (asked : Asks visitor wanted .between place owner before gap (.ok true) between)
    (adds : ∀ visit ∈ gap, visit.Adds) (leg : Leg tree place part between visits (.ok ()) further)
    (later : Legs tree place owner rest further others result after)
    (around : ∀ other ∈ part :: rest, ∀ id ∈ other.ids, id ≠ owner ∧ place.block? tree ≠ some id)
    (apart : ∀ id ∈ rest.flatMap Term.ids, id ∉ part.ids) :
    Legs tree place owner (part :: rest) before (gap ++ (visits ++ others)) result after where
  keeps := by
    have extension : before.space.tree.Keeps ((part :: rest).flatMap Term.ids) between.space.tree :=
      .of_extends (asked.extends_nodes adds)
    exact extension.trans ((leg.keeps.mono (by simp)).trans (later.keeps.mono (by simp)))
  among := by
    refine List.forall_mem_append.mpr ⟨fun visit own => .inl (asked.visits_eq visit own), ?_⟩
    refine List.forall_mem_append.mpr ⟨fun visit inside => ?_, fun visit after => ?_⟩
    · exact .inr ⟨part, List.mem_cons_self, leg.within visit inside⟩
    · exact (later.among visit after).mono (List.subset_cons_self _ _)
  faults fault failed := by
    obtain ⟨visit, member, same⟩ := later.faults fault failed
    exact ⟨visit, List.mem_append_right _ (List.mem_append_right _ member), same⟩
  spliced left done other member piece inside := by
    obtain ⟨differs, outside⟩ := around other member piece.id (Term.mem_ids_of_piece inside)
    refine .append_left (asked.not_touches differs outside) ?_
    -- later walks leave the first child alone, and its own walk leaves the others alone
    rcases List.mem_cons.mp member with rfl | among
    · have own : piece.id ∉ rest.flatMap Term.ids := fun later => apart piece.id later (Term.mem_ids_of_piece inside)
      refine .append_right (later.not_touches differs outside own) ?_
      exact (leg.spliced rfl piece inside).congr fun node found => later.keeps _ node found own
    · refine .append_left (fun visit visited touches => ?_) (later.spliced left done other among piece inside)
      rcases (leg.within visit visited).mem_of_touches touches with own | around
      · exact apart piece.id (List.mem_flatMap.mpr ⟨other, among, Term.mem_ids_of_piece inside⟩) own
      · exact outside around

theorem Row.legs {leg : Term → Effect σ Unit} {first : Bool} {result : Except Fault (List Term)} {node : Node}
    (adds : ∀ visit ∈ visits, visit.Adds) (row : Row visitor leg place owner first parts before visits result after)
    (legs : ∀ part ∈ parts, ∀ before visits result after, leg part before visits result after →
      Leg tree place part before visits result after)
    (around : ∀ part ∈ parts, ∀ id ∈ part.ids, id ≠ owner ∧ place.block? tree ≠ some id)
    (found : before.space.tree.nodes.get? owner = some node) (inner : node.isLeaf = false)
    (stand : ∀ part ∈ parts, part.Of before.space.tree) (nodup : (parts.flatMap Term.ids).Nodup) :
    Legs tree place owner parts before visits result after := by
  induction row with
  | done => exact ⟨.refl _, by simp, by simp, by simp⟩
  | @stop first part rest before after gap asked =>
    have extension := asked.extends_nodes adds
    refine ⟨.of_extends extension, fun visit own => .inl (asked.visits_eq visit own), by simp, ?_⟩
    intro left _ other member piece inside
    obtain ⟨apart, outside⟩ := around other member piece.id (Term.mem_ids_of_piece inside)
    refine .of_untouched (asked.not_touches apart outside) ?_
    exact extension _ _ ((stand other member).of_mem_pieces inside).found
  | @refuse first part rest before after gap fault asked =>
    refine ⟨.of_extends (asked.extends_nodes adds), fun visit own => .inl (asked.visits_eq visit own), ?_, by simp⟩
    rintro _ ⟨⟩
    exact asked.faults found inner
  | @fault first part rest before between after gap visits fault asked walked =>
    have extension := asked.extends_nodes (List.forall_mem_append.mp adds).1
    have leg := legs part List.mem_cons_self _ _ _ _ walked
    refine ⟨(Tree.Keeps.of_extends extension).trans (leg.keeps.mono (by simp)), ?_, ?_, by simp⟩
    · refine List.forall_mem_append.mpr ⟨fun visit own => .inl (asked.visits_eq visit own), fun visit inside => ?_⟩
      exact .inr ⟨part, List.mem_cons_self, leg.within visit inside⟩
    · rintro _ ⟨⟩
      obtain ⟨visit, member, same⟩ := leg.faults _ rfl
      exact ⟨visit, List.mem_append_right _ member, same⟩
  | @next first part rest before between further after gap visits others result asked walked row ih =>
    obtain ⟨addsGap, adds⟩ := List.forall_mem_append.mp adds
    have extension := asked.extends_nodes addsGap
    have leg := legs part List.mem_cons_self _ _ _ _ walked
    rw [List.flatMap_cons, List.nodup_append] at nodup
    have apart : ∀ id ∈ rest.flatMap Term.ids, id ∉ part.ids := fun id later own => nodup.2.2 id own id later rfl
    have standing : ∀ other ∈ rest, other.Of further.space.tree := fun other member =>
      leg.keeps.of ((stand other (List.mem_cons_of_mem _ member)).mono extension)
        fun id inside => apart id (List.mem_flatMap.mpr ⟨other, member, inside⟩)
    have there := leg.keeps owner node (extension _ _ found)
      fun inside => (around part List.mem_cons_self owner inside).1 rfl
    have later := ih (List.forall_mem_append.mp adds).2
      (fun other member => legs other (List.mem_cons_of_mem _ member))
      (fun other member => around other (List.mem_cons_of_mem _ member)) there standing nodup.2.1
    exact later.cons asked addsGap leg around apart

/-- What the walks of the children of a node other than a block insert goes into the block around. -/
theorem Row.rebuilt_put {leg : Term → Effect σ Unit} {first : Bool} {left : List Term}
    (adds : ∀ visit ∈ visits, visit.Adds)
    (row : Row visitor leg place owner first parts before visits (.ok left) after)
    (legs : ∀ part ∈ parts, ∀ before visits after, leg part before visits (.ok ()) after →
      after.rebuilt.toList = before.rebuilt.toList ++ put tree (place.block? tree) visits) :
    after.rebuilt.toList = before.rebuilt.toList ++ put tree (place.block? tree) visits := by
  generalize same : Except.ok left = result at row
  induction row with
  | done => simp [put]
  | stop asked => exact asked.rebuilt_put adds tree
  | refuse | fault => cases same
  | @next first part rest before between further after gap visits others result asked walked row ih =>
    obtain ⟨addsGap, adds⟩ := List.forall_mem_append.mp adds
    rw [ih (List.forall_mem_append.mp adds).2 (fun other member => legs other (List.mem_cons_of_mem _ member)) same,
      legs part List.mem_cons_self _ _ _ walked, asked.rebuilt_put addsGap tree]
    simp only [put_append, List.append_assoc]

/-- The statements of a block are all there after their walks, with all that was inserted. -/
theorem Row.rebuilt_perm {leg : Term → Effect σ Unit} {first : Bool} {left : List Term}
    (adds : ∀ visit ∈ visits, visit.Adds)
    (row : Row visitor (fun part => Emits (leg part) part.id) place owner first parts before visits (.ok left) after)
    (legs : ∀ part ∈ parts, ∀ before visits after, leg part before visits (.ok ()) after →
      after.rebuilt.toList = before.rebuilt.toList ++ put tree (place.block? tree) visits) :
    (after.rebuilt.toList ++ left.map Term.id).Perm
      (before.rebuilt.toList ++ (parts.map Term.id ++ put tree (place.block? tree) visits)) := by
  generalize same : Except.ok left = result at row
  induction row with
  | done =>
    obtain rfl := Except.ok.inj same
    simp [put]
  | @stop first part rest before after gap asked =>
    obtain rfl := Except.ok.inj same
    rw [asked.rebuilt_put adds tree, List.append_assoc]
    exact List.perm_append_comm.append_left _
  | refuse | fault => cases same
  | @next first part rest before between further after gap visits others result asked walked row ih =>
    obtain ⟨addsGap, adds⟩ := List.forall_mem_append.mp adds
    cases walked with
    | done walked =>
      have later := ih (List.forall_mem_append.mp adds).2
        (fun other member => legs other (List.mem_cons_of_mem _ member)) same
      refine later.trans (List.perm_iff_count.mpr fun id => ?_)
      simp only [Array.toList_push, legs part List.mem_cons_self _ _ _ walked, asked.rebuilt_put addsGap tree,
        put_append, List.count_append, List.map_cons, List.count_cons, List.count_nil]
      omega

section
variable {outer : List NodeId}

theorem Asks.landing_eq_nil {wanted : Bool} {moment : Moment} {answer : Except Fault Bool} {statement : NodeId}
    (asks : Asks visitor wanted moment place owner before visits answer after)
    (ancestors : place.ancestors = owner :: outer) (isBlock : tree.isBlock owner = true) (other : statement ≠ owner) :
    landing tree owner statement visits = [] := by
  refine Walk.landing_eq_nil fun visit member _ own => other ?_
  obtain ⟨_, stands, same⟩ := asks.visits_eq visit member
  rw [stands, same, Site.statement, ancestors, List.takeWhile_cons_of_neg (by simp [isBlock])] at own
  exact own.symm

/-- What is inserted into a block while a statement of it is walked. -/
theorem Leg.landing_eq {result : Except Fault Unit} (leg : Leg tree place term before visits result after)
    (ancestors : place.ancestors = owner :: outer) (isBlock : tree.isBlock owner = true) (apart : owner ∉ term.ids)
    (statement : NodeId) : landing tree owner statement visits =
      if statement = term.id then put tree (some owner) visits else [] := by
  have own (visit) (member : visit ∈ visits) (inserts : visit.site.block? tree = some owner) :
      visit.site.statement tree visit.id = term.id :=
    (leg.within visit member).statement_eq ancestors isBlock apart inserts
  split
  · rename_i same
    exact same ▸ landing_eq_put own
  · rename_i other
    exact Walk.landing_eq_nil fun visit member inserts same => other (same.symm.trans (own visit member inserts))

/-- The walk of one statement, after the visit before it, lands at that statement only. -/
theorem Leg.landing_next {wanted : Bool} {moment : Moment} {answer : Except Fault Bool} {result : Except Fault Unit}
    {between : WalkState σ} {gap : List (Visit σ)} {statement : NodeId}
    (leg : Leg tree place term between visits result after)
    (asks : Asks visitor wanted moment place owner before gap answer between)
    (ancestors : place.ancestors = owner :: outer) (isBlock : tree.isBlock owner = true) (apart : owner ∉ term.ids)
    (other : statement ≠ owner) (others : List (Visit σ)) :
    landing tree owner statement (gap ++ (visits ++ others)) =
      (if statement = term.id then put tree (some owner) visits else []) ++ landing tree owner statement others := by
  rw [landing_append, landing_append, asks.landing_eq_nil ancestors isBlock other, List.nil_append,
    leg.landing_eq ancestors isBlock apart]

theorem Leg.gaps_eq_nil {result : Except Fault Unit} (leg : Leg tree place term before visits result after)
    (apart : owner ∉ term.ids) : gaps owner visits = [] :=
  Walk.gaps_eq_nil fun visit member _ same => apart (same ▸ (leg.within visit member).id_mem)

theorem Row.landing_eq_nil {leg : Term → Effect σ Unit} {first : Bool} {result : Except Fault (List Term)}
    {statement : NodeId} (row : Row visitor leg place owner first parts before visits result after)
    (legs : ∀ part ∈ parts, ∀ before visits result after, leg part before visits result after →
      Leg tree place part before visits result after)
    (ancestors : place.ancestors = owner :: outer) (isBlock : tree.isBlock owner = true)
    (apart : ∀ part ∈ parts, owner ∉ part.ids) (other : statement ≠ owner) (fresh : statement ∉ parts.map Term.id) :
    landing tree owner statement visits = [] := by
  induction row with
  | done => rfl
  | stop asked | refuse asked => exact asked.landing_eq_nil ancestors isBlock other
  | fault asked walked =>
    rw [List.map_cons, List.mem_cons, not_or] at fresh
    have leg := legs _ List.mem_cons_self _ _ _ _ walked
    rw [landing_append, asked.landing_eq_nil ancestors isBlock other,
      leg.landing_eq ancestors isBlock (apart _ List.mem_cons_self), if_neg fresh.1]
    rfl
  | next asked walked _ ih =>
    rw [List.map_cons, List.mem_cons, not_or] at fresh
    have leg := legs _ List.mem_cons_self _ _ _ _ walked
    rw [leg.landing_next asked ancestors isBlock (apart _ List.mem_cons_self) other, if_neg fresh.1,
      ih (fun other member => legs other (List.mem_cons_of_mem _ member))
        (fun other member => apart other (List.mem_cons_of_mem _ member)) fresh.2]
    rfl

theorem Asks.eq_nil {wanted : Bool} {moment : Moment} {goesOn : Bool}
    (asks : Asks visitor wanted moment site id before visits (.ok goesOn) after) (unwanted : wanted = false) :
    visits = [] := by
  cases asks with
  | skip => rfl
  | visit wants => cases wants.symm.trans unwanted

/-- The visit before a child fills the next gap, if there are such visits. -/
theorem Asks.gap_eq {first goesOn : Bool} {later : List (List NodeId)}
    (asks : Asks visitor (!first && visitor.visits.between) .between place owner before visits (.ok goesOn) after)
    (none : visitor.visits.between = false → later = []) :
    ((if first then [[]] else []) ++ (gaps owner visits ++ later)).headD [] = visits.flatMap Visit.inserted ∧
      ((if first then [[]] else []) ++ (gaps owner visits ++ later)).tail = later := by
  cases asks with
  | visit wants visited =>
    simp only [Bool.and_eq_true, Bool.not_eq_true'] at wants
    simp [wants.1, gaps]
  | skip unwanted =>
    cases first with
    | true => simp [gaps]
    | false =>
      rw [none (by simpa using unwanted)]
      simp [gaps]

/-- Where the walk of a block stops, what the visit there inserts stands before the statements left. -/
theorem Asks.interleave_eq {first goesOn : Bool} {statement : NodeId} {rest : List NodeId}
    (asks : Asks visitor (!first && visitor.visits.between) .between place owner before visits (.ok goesOn) after)
    (ancestors : place.ancestors = owner :: outer) (isBlock : tree.isBlock owner = true)
    (others : ∀ other ∈ statement :: rest, other ≠ owner) :
    interleave (landing tree owner · visits) ((if first then [[]] else []) ++ gaps owner visits) (statement :: rest) =
      visits.flatMap Visit.inserted ++ statement :: rest := by
  have nothing : visitor.visits.between = false → ([] : List (List NodeId)) = [] := fun _ => rfl
  obtain ⟨filled, none⟩ := asks.gap_eq nothing
  rw [List.append_nil] at filled none
  have landed : ∀ other ∈ statement :: rest, landing tree owner other visits = [] := fun other member =>
    asks.landing_eq_nil ancestors isBlock (others other member)
  rw [interleave, filled, none, landed statement List.mem_cons_self, List.append_nil,
    interleave_nil fun other member => landed other (List.mem_cons_of_mem _ member)]

/-- All that lands at a statement was inserted by its own walk, as no other statement has its handle. -/
theorem Leg.landing_own {leg : Term → Effect σ Unit} {wanted : Bool} {moment : Moment} {answer : Except Fault Bool}
    {result : Except Fault Unit} {left : Except Fault (List Term)} {between further last : WalkState σ}
    {gap others : List (Visit σ)} (walked : Leg tree place term between visits result after)
    (asks : Asks visitor wanted moment place owner before gap answer between)
    (row : Row visitor leg place owner false parts further others left last)
    (legs : ∀ part ∈ parts, ∀ before visits result after, leg part before visits result after →
      Leg tree place part before visits result after)
    (ancestors : place.ancestors = owner :: outer) (isBlock : tree.isBlock owner = true)
    (apart : ∀ part ∈ term :: parts, owner ∉ part.ids) (fresh : term.id ∉ parts.map Term.id) :
    landing tree owner term.id (gap ++ (visits ++ others)) = put tree (some owner) visits := by
  have own : owner ∉ term.ids := apart term List.mem_cons_self
  have differs : term.id ≠ owner := fun same => own (same ▸ term.id_mem_ids)
  rw [walked.landing_next asks ancestors isBlock own differs, if_pos rfl,
    row.landing_eq_nil legs ancestors isBlock (fun part member => apart part (List.mem_cons_of_mem _ member)) differs fresh,
    List.append_nil]

/-- What the walks of the statements of a block insert stands right before the statement walked. -/
theorem Row.rebuilt_interleave {leg : Term → Effect σ Unit} {first : Bool} {left : List Term}
    (adds : ∀ visit ∈ visits, visit.Adds)
    (row : Row visitor (fun part => Emits (leg part) part.id) place owner first parts before visits (.ok left) after)
    (legs : ∀ part ∈ parts, ∀ before visits result after, leg part before visits result after →
      Toured tree place part before visits result after)
    (ancestors : place.ancestors = owner :: outer) (isBlock : tree.isBlock owner = true)
    (apart : ∀ part ∈ parts, owner ∉ part.ids) (nodup : (parts.map Term.id).Nodup) :
    (visitor.visits.between = false → gaps owner visits = []) ∧
      after.rebuilt.toList ++ left.map Term.id = before.rebuilt.toList ++
        interleave (landing tree owner · visits) ((if first then [[]] else []) ++ gaps owner visits)
          (parts.map Term.id) := by
  have differs : ∀ statement ∈ parts.map Term.id, statement ≠ owner := by
    rintro statement member rfl
    obtain ⟨part, among, same⟩ := List.mem_map.mp member
    exact apart part among (same ▸ part.id_mem_ids)
  generalize same : Except.ok left = result at row
  induction row with
  | done =>
    obtain rfl := Except.ok.inj same
    exact ⟨fun _ => rfl, by simp [interleave]⟩
  | @stop first part rest before after gap asked =>
    obtain rfl := Except.ok.inj same
    refine ⟨fun unwanted => ?_, ?_⟩
    · rw [asked.eq_nil (by simp [unwanted])]
      rfl
    · rw [List.map_cons, asked.interleave_eq ancestors isBlock differs, ← List.append_assoc,
        asked.rebuilt_eq fun visit member => (adds visit member).inserts]
  | refuse | fault => cases same
  | @next first part rest before between further after gap visits others result asked walked row ih =>
    obtain ⟨addsGap, adds⟩ := List.forall_mem_append.mp adds
    cases walked with
    | @done _ closed _ walked =>
      have toured := legs part List.mem_cons_self _ _ _ _ walked
      have laterLegs : ∀ other ∈ rest, ∀ before visits result after, leg other before visits result after →
          Toured tree place other before visits result after := fun other member =>
        legs other (List.mem_cons_of_mem _ member)
      have laterApart : ∀ other ∈ rest, owner ∉ other.ids := fun other member =>
        apart other (List.mem_cons_of_mem _ member)
      rw [List.map_cons, List.nodup_cons] at nodup
      obtain ⟨none, again⟩ := ih (List.forall_mem_append.mp adds).2 laterLegs laterApart nodup.2
        (fun other member => differs other (List.mem_cons_of_mem _ member)) same
      obtain ⟨filled, further⟩ := asked.gap_eq none
      have gapped : gaps owner (gap ++ (visits ++ others)) = gaps owner gap ++ gaps owner others := by
        rw [gaps_append, gaps_append, toured.gaps_eq_nil (apart part List.mem_cons_self), List.nil_append]
      have own : landing tree owner part.id (gap ++ (visits ++ others)) = put tree (some owner) visits :=
        toured.landing_own asked row (fun other member _ _ _ _ emits => Emits.leg (emits.mono (laterLegs other member _ _)))
          ancestors isBlock apart nodup.1
      have elsewhere : ∀ statement ∈ rest.map Term.id, landing tree owner statement (gap ++ (visits ++ others)) =
          landing tree owner statement others := by
        intro statement member
        have different : statement ≠ part.id := fun same => nodup.1 (same ▸ member)
        rw [toured.landing_next asked ancestors isBlock (apart part List.mem_cons_self)
          (differs statement (List.mem_cons_of_mem _ member)), if_neg different, List.nil_append]
      have inside : place.block? tree = some owner := by
        rw [Site.block?, ancestors, List.find?_cons_of_pos isBlock]
      refine ⟨fun unwanted => ?_, ?_⟩
      · rw [gapped, none unwanted, asked.eq_nil (by simp [unwanted])]
        rfl
      · have pushed := toured.rebuilt rfl
        rw [inside] at pushed
        rw [again, List.map_cons, interleave, gapped, filled, further, own, interleave_congr elsewhere]
        simp [Array.toList_push, pushed, asked.rebuilt_eq fun visit member => (addsGap visit member).inserts]

end

namespace Toured

variable {wanted : Bool} {moment : Moment} {result : Except Fault Unit} {between : WalkState σ}
  {first final : List (Visit σ)}

/-- Where nothing is done yet, nothing is changed. -/
theorem nil (tree : Tree) (site : Site) (stands : term.Of before.space.tree) :
    Toured tree site term before [] (.ok ()) before := by
  refine ⟨⟨.refl _, by simp, by simp, fun _ piece member => ?_⟩, by simp [put]⟩
  exact .of_untouched (by simp) (stands.of_mem_pieces member).found

/-- A visit before or after the children is one of `term`, and inserts into no block of `term`. -/
theorem own_visit {answer : Except Fault Bool}
    (asks : Asks visitor wanted moment site term.id before visits answer after) (own : moment ≠ .between)
    (outside : ∀ id ∈ term.ids, id ∉ site.ancestors) (tree : Tree) :
    (∀ visit ∈ visits, visit.Within site term) ∧
      ∀ piece ∈ term.pieces, ∀ visit ∈ visits, ¬ visit.Touches tree piece.id := by
  refine ⟨fun visit member => ?_, fun piece inside visit member touches => ?_⟩ <;>
    obtain ⟨same, stands, id⟩ := asks.visits_eq visit member
  · exact ⟨site, term, .here, id, by rw [stands, if_neg (same ▸ own)]⟩
  · rcases touches with inserts | ⟨between, _⟩
    · exact Site.block?_ne (outside piece.id (Term.mem_ids_of_piece inside)) (stands ▸ inserts)
    · exact own (same.symm.trans between)

theorem prepend {goesOn : Bool} (toured : Toured tree site term between visits result after)
    (asks : Asks visitor wanted moment site term.id before first (.ok goesOn) between) (own : moment ≠ .between)
    (outside : ∀ id ∈ term.ids, id ∉ site.ancestors) (adds : ∀ visit ∈ first, visit.Adds) :
    Toured tree site term before (first ++ visits) result after := by
  obtain ⟨within, untouched⟩ := own_visit asks own outside tree
  refine ⟨⟨(Tree.Keeps.of_extends (asks.extends_nodes adds)).trans toured.keeps, ?_, ?_, ?_⟩, fun done => ?_⟩
  · exact fun visit member => (List.mem_append.mp member).elim (within visit) (toured.within visit)
  · intro fault failed
    obtain ⟨visit, member, same⟩ := toured.faults fault failed
    exact ⟨visit, List.mem_append_right _ member, same⟩
  · intro done piece member
    exact .append_left (untouched piece member) (toured.spliced done piece member)
  · rw [toured.rebuilt done, asks.rebuilt_put adds tree, put_append, List.append_assoc]

theorem append {answer : Except Fault Bool} (toured : Toured tree site term before visits (.ok ()) between)
    (asks : Asks visitor wanted moment site term.id between final answer after) (own : moment ≠ .between)
    (answers : ∀ fault, answer = .error fault → ∃ visit ∈ final, visit.answer = .error fault)
    (outside : ∀ id ∈ term.ids, id ∉ site.ancestors) (adds : ∀ visit ∈ final, visit.Adds) :
    Toured tree site term before (visits ++ final) (answer.map fun _ => ()) after := by
  obtain ⟨within, untouched⟩ := own_visit asks own outside tree
  have extension := asks.extends_nodes adds
  refine ⟨⟨toured.keeps.trans (.of_extends extension), ?_, ?_, ?_⟩, fun _ => ?_⟩
  · exact fun visit member => (List.mem_append.mp member).elim (toured.within visit) (within visit)
  · intro fault failed
    cases answer with
    | ok _ => cases failed
    | error _ =>
      obtain ⟨visit, member, same⟩ := answers fault (by simpa [Except.map] using failed)
      exact ⟨visit, List.mem_append_right _ member, same⟩
  · intro _ piece member
    exact .append_right (untouched piece member) ((toured.spliced rfl piece member).congr fun _ => extension _ _)
  · rw [asks.rebuilt_put adds tree, toured.rebuilt rfl, put_append, List.append_assoc]

end Toured

section
variable {child : Site → NodeId → Effect σ Unit} {node : Node} {statements : List NodeId}

/-- What stands below the node at `id`, and around it, as a walk enters it. -/
structure Entered (tree : Tree) (site : Site) (id : NodeId) (node : Node) (parts : List Term) (before : WalkState σ) :
    Prop where
  known : (Term.mk id node parts).Of tree
  stands : (Term.mk id node parts).Of before.space.tree
  nodup : (Term.mk id node parts).ids.Nodup
  outside : ∀ other ∈ (Term.mk id node parts).ids, other ∉ site.ancestors

namespace Entered

variable (entered : Entered tree site id node parts before)
include entered

theorem found : before.space.tree.nodes.get? id = some node := entered.stands.found

theorem children : node.children = parts.map Term.id := entered.stands.children

theorem parts_stand : ∀ part ∈ parts, part.Of before.space.tree := fun _ => entered.stands.parts

theorem parts_nodup : id ∉ parts.flatMap Term.ids ∧ (parts.flatMap Term.ids).Nodup := by
  have nodup := entered.nodup
  rwa [Term.ids_mk, List.nodup_cons] at nodup

theorem apart : ∀ part ∈ parts, id ∉ part.ids := fun part member inside =>
  entered.parts_nodup.1 (List.mem_flatMap.mpr ⟨part, member, inside⟩)

theorem block?_enter : (site.enter id node).block? tree = if node.isBlock then some id else site.block? tree := by
  have found : tree.nodes.get? id = some node := entered.known.found
  cases isBlock : node.isBlock <;> simp [Site.block?, Site.enter, Tree.isBlock, found, isBlock]

/-- No part contains the node, or a block around it. -/
theorem around : ∀ part ∈ parts, ∀ other ∈ part.ids,
    other ≠ id ∧ (site.enter id node).block? tree ≠ some other := by
  intro part member other inside
  have differs : other ≠ id := fun same => entered.apart part member (same ▸ inside)
  refine ⟨differs, Site.block?_ne ?_⟩
  simp only [Site.enter, List.mem_cons, not_or]
  exact ⟨differs, entered.outside other (Term.mem_ids_of_part member inside)⟩

end Entered

theorem Visit.Among.within {visit : Visit σ} (among : visit.Among (site.enter id node) id parts) :
    visit.Within site (.mk id node parts) := by
  rcases among with ⟨between, stands, same⟩ | ⟨part, member, within⟩
  · exact ⟨site, .mk id node parts, .here, same, by rw [stands, if_pos between]; rfl⟩
  · exact within.of_part member

/-- All that is inserted into a block and into blocks below it is inserted into no block around it. -/
theorem Entered.put_eq_nil (entered : Entered tree site id node parts before) (isBlock : node.isBlock = true)
    (among : ∀ visit ∈ visits, visit.Among (site.enter id node) id parts) : put tree (site.block? tree) visits = [] := by
  have isInside := entered.block?_enter
  rw [isBlock, if_pos rfl] at isInside
  refine Walk.put_eq_nil fun visit member same => ?_
  have below : ∃ block ∈ (Term.mk id node parts).ids, visit.site.block? tree = some block := by
    rcases among visit member with ⟨_, stands, _⟩ | ⟨part, among, within⟩
    · exact ⟨id, Term.id_mem_ids _, stands ▸ isInside⟩
    · rcases within.block?_eq tree with around | ⟨block, inside, inserts⟩
      · exact ⟨id, Term.id_mem_ids _, around.trans isInside⟩
      · exact ⟨block, Term.mem_ids_of_part among inside, inserts⟩
  obtain ⟨block, inside, inserts⟩ := below
  exact Site.block?_ne (entered.outside block inside) (same.symm.trans inserts)

/-- A block was walked if it holds its statements with the insertions at the end, be it written again or not. -/
theorem Entered.toured_of_splice {inner closed : WalkState σ} {items : List Term}
    (entered : Entered tree site id node parts before) (isBlock : node.isBlock = true)
    (legs : Legs tree (site.enter id node) id parts { before with rebuilt := #[] } visits (.ok items) inner)
    (all : ∀ statements, node = .block statements →
      (interleave (landing tree id · visits) ([] :: gaps id visits) statements).Perm
        (statements ++ put tree (some id) visits))
    (keeps : inner.space.tree.Keeps [id] closed.space.tree)
    (own : closed.space.tree.nodes.get? id = some (splice tree visits id node))
    (restored : closed.rebuilt = before.rebuilt) :
    Toured tree site (.mk id node parts) before visits (.ok ()) closed := by
  have wide : parts.flatMap Term.ids ⊆ (Term.mk id node parts).ids := by simp [Term.ids_mk]
  constructor
  case rebuilt =>
    intro _
    rw [restored, entered.put_eq_nil isBlock legs.among, List.append_nil]
  case toLeg =>
    constructor
    case keeps => exact (legs.keeps.mono wide).trans (keeps.mono (by simp [Term.ids_mk]))
    case within => exact fun visit member => (legs.among visit member).within
    case faults => simp
    case spliced =>
      intro _ piece member
      rcases Term.mem_pieces_iff.mp member with rfl | ⟨part, among, inside⟩
      · exact ⟨own, all⟩
      · refine (legs.spliced items rfl part among piece inside).congr fun node found => keeps _ node found ?_
        simpa using (entered.around part among piece.id (Term.mem_ids_of_piece inside)).1

variable (entered : Entered tree site id node parts before) (adds : ∀ visit ∈ visits, visit.Adds)
  (walks : ∀ part ∈ parts, ∀ before visits result after, part.Of before.space.tree →
    (∀ visit ∈ visits, visit.Adds) → child (site.enter id node) part.id before visits result after →
    Toured tree (site.enter id node) part before visits result after)
include entered adds walks

/-- The walks of the parts of a node other than a block. -/
theorem Row.toured {result : Except Fault (List NodeId)} (inner : node.isLeaf = false) (plain : node.isBlock = false)
    (row : Row visitor (child (site.enter id node)) (site.enter id node) id true node.children before visits
      result after) :
    Toured tree site (.mk id node parts) before visits (result.map fun _ => ()) after := by
  rw [entered.children] at row
  obtain ⟨left, rfl, rows⟩ := row.stand adds walks (fun _ _ _ _ _ _ toured => toured.keeps) entered.parts_stand
    entered.parts_nodup.2
  have legs : Legs tree (site.enter id node) id parts before visits left after :=
    rows.legs adds (fun _ _ _ _ _ _ toured => toured.toLeg) entered.around entered.found inner
      entered.parts_stand entered.parts_nodup.2
  have ids := Term.ids_mk id node parts
  refine ⟨⟨legs.keeps.mono (by simp [ids]),
    fun visit member => (legs.among visit member).within, ?_, ?_⟩, ?_⟩
  · intro fault failed
    cases left with
    | ok left => cases failed
    | error cause => exact legs.faults fault (by simpa [Except.map] using failed)
  · intro done piece member
    cases left with
    | error cause => cases done
    | ok left =>
      rcases Term.mem_pieces_iff.mp member with rfl | ⟨part, among, inside⟩
      · refine ⟨(splice_of_not_block plain).symm ▸ legs.keeps id node entered.found entered.parts_nodup.1, ?_⟩
        rintro statements rfl
        cases plain
      · exact legs.spliced left rfl part among piece inside
  · intro done
    cases left with
    | error cause => cases done
    | ok left =>
      have around := entered.block?_enter
      rw [plain] at around
      have pushed := rows.rebuilt_put adds fun _ _ _ _ _ toured => toured.rebuilt rfl
      rwa [around] at pushed

/-- The statements of a block and their walk. -/
theorem Row.toured_block {result left : Except Fault (List NodeId)} {inner : WalkState σ}
    (isBlock : node = .block statements)
    (row : Row visitor (fun statement => Emits (child (site.enter id node) statement) statement) (site.enter id node) id
      true statements { before with rebuilt := #[] } visits left inner)
    (closes : Closes id statements before.rebuilt inner left result after) :
    Toured tree site (.mk id node parts) before visits (result.map fun _ => ()) after := by
  obtain rfl : statements = parts.map Term.id := by
    have children := entered.children
    rwa [isBlock] at children
  obtain ⟨left, rfl, rows⟩ : ∃ items, left = items.map (·.map Term.id) ∧
      Row visitor (fun part => Emits (Toured tree (site.enter id node) part) part.id) (site.enter id node) id true parts
        { before with rebuilt := #[] } visits items inner :=
    row.stand adds
      (fun part member _ _ _ _ stands adds emits => emits.mono fun _ _ => walks part member _ _ _ _ stands adds)
      (fun _ _ _ _ _ _ emits => (Emits.leg emits).keeps) entered.parts_stand entered.parts_nodup.2
  have legs : Legs tree (site.enter id node) id parts { before with rebuilt := #[] } visits left inner :=
    rows.legs adds (fun _ _ _ _ _ _ emits => Emits.leg emits) entered.around entered.found (by rw [isBlock]; rfl)
      entered.parts_stand entered.parts_nodup.2
  have there : inner.space.tree.nodes.get? id = some node := legs.keeps id node entered.found entered.parts_nodup.1
  have block : node.isBlock = true := by rw [isBlock]; rfl
  cases left with
  | error cause =>
    cases closes with
    | fault =>
      have wide : parts.flatMap Term.ids ⊆ (Term.mk id node parts).ids := by simp [Term.ids_mk]
      refine ⟨⟨legs.keeps.mono wide, fun visit member => (legs.among visit member).within, ?_, by simp [Except.map]⟩,
        by simp [Except.map]⟩
      rintro _ ⟨⟩
      exact legs.faults _ rfl
  | ok items =>
    obtain ⟨_, pushed⟩ := rows.rebuilt_interleave adds (fun _ _ _ _ _ _ toured => toured) rfl
      (by simp [Tree.isBlock, show tree.nodes.get? id = some node from entered.known.found, isBlock, Node.isBlock])
      entered.apart (entered.children ▸ entered.known.children_nodup entered.nodup)
    have all : ∀ statements, node = .block statements →
        (interleave (landing tree id · visits) ([] :: gaps id visits) statements).Perm
          (statements ++ put tree (some id) visits) := by
      rintro statements again
      obtain rfl : statements = parts.map Term.id := by
        rw [isBlock] at again
        exact (Node.block.inj again).symm
      have perm := rows.rebuilt_perm adds fun _ _ _ _ _ (toured : Toured tree _ _ _ _ _ _) => toured.rebuilt rfl
      rw [entered.block?_enter, if_pos block, pushed] at perm
      simpa using perm
    cases closes with
    | kept few =>
      have length := congrArg List.length pushed
      have short : (interleave (landing tree id · visits) ([] :: gaps id visits) (parts.map Term.id)).length ≤
          (parts.map Term.id).length := by
        simp at length few ⊢
        omega
      refine entered.toured_of_splice block legs all (.refl _) (there.trans ?_) rfl
      rw [isBlock, splice, interleave_eq_of_length_le short]
    | rebuilt more written =>
      have spliced : splice tree visits id node = .block (inner.rebuilt.toList ++ items.map Term.id) := by
        rw [isBlock, splice]
        exact congrArg Node.block (by simpa using pushed.symm)
      exact entered.toured_of_splice block legs all (.of_write written) (spliced ▸ (Tree.get?_of_write written).1) rfl
    | lost gone => cases there.symm.trans gone

theorem Inner.toured {result : Except Fault (List NodeId)}
    (inner : node.isLeaf = false) (within : Inner visitor child site id before visits result after) :
    Toured tree site (.mk id node parts) before visits (result.map fun _ => ()) after := by
  cases within with
  | missing gone => cases entered.found.symm.trans gone
  | plain found plain row =>
    obtain rfl := Option.some.inj (entered.found.symm.trans found)
    exact row.toured entered adds walks inner plain
  | block found row closes =>
    obtain rfl := Option.some.inj (entered.found.symm.trans found)
    exact row.toured_block entered adds walks rfl closes

theorem Step.toured {result : Except Fault Unit}
    (step : Step visitor child site id before visits result after) :
    Toured tree site (.mk id node parts) before visits result after := by
  have start := Toured.nil tree site entered.stands
  cases step with
  | missing gone => cases entered.found.symm.trans gone
  | @leaf _ _ _ answer found leaf visited =>
    have asked : Asks visitor true .leaf site id before _ answer after := .visit rfl visited
    exact start.append asked (by simp) (fun _ failed => ⟨_, List.mem_singleton_self _, failed⟩) entered.outside adds
  | barred found inner asked stops =>
    refine start.append asked (by simp) (fun fault failed => ?_) entered.outside adds
    exact Asks.faults (failed ▸ asked) found inner
  | through found inner asked inside =>
    obtain rfl := Option.some.inj (entered.found.symm.trans found)
    obtain ⟨addsFirst, adds⟩ := List.forall_mem_append.mp adds
    have opened := { entered with stands := entered.stands.mono (asked.extends_nodes addsFirst) }
    refine Toured.prepend ?_ asked (by simp) entered.outside addsFirst
    cases inside with
    | fault within => exact within.toured opened adds walks inner
    | closed within last =>
      obtain ⟨adds, addsLast⟩ := List.forall_mem_append.mp adds
      have toured := within.toured opened adds walks inner
      have there := (toured.spliced rfl _ (Term.mem_pieces_self _)).found
      refine toured.append last (by simp) (fun fault failed => ?_) entered.outside addsLast
      exact Asks.faults (failed ▸ last) there ((splice_isLeaf _ _ _ _).trans inner)

end

/-- What a walk of a standing piece does. The induction is on the piece, whose parts the walk enters. -/
theorem Runs.toured {depth : Nat} {result : Except Fault Unit} (adds : ∀ visit ∈ visits, visit.Adds)
    (runs : Runs visitor depth site term.id before visits result after) (deep : term.height ≤ depth)
    (known : term.Of tree) (stands : term.Of before.space.tree) (nodup : term.ids.Nodup)
    (outside : ∀ id ∈ term.ids, id ∉ site.ancestors) : Toured tree site term before visits result after := by
  induction term using Term.induct generalizing depth site before visits result after with
  | step id node parts ih =>
    obtain _ | depth := depth
    · have positive := Term.height_pos (.mk id node parts)
      omega
    · have entered : Entered tree site id node parts before := ⟨known, stands, nodup, outside⟩
      refine Step.toured entered adds (fun part member opened visits result closed standing adds runs => ?_) runs
      have lower : part.height < (Term.mk id node parts).height := Term.height_lt member
      refine ih part member adds runs (by omega) (known.parts member) standing
        ((List.nodup_flatMap.mp entered.parts_nodup.2).1 part member) fun other inside => ?_
      simp only [Site.enter, List.mem_cons, not_or]
      exact ⟨(entered.around part member other inside).1, outside other (Term.mem_ids_of_part member inside)⟩

end Walk
end ShaderTree
