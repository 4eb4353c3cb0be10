import ShaderTree.Proofs.SamplerRoutes

/-! Whether a structure has samplers in it. The question is answered field by field up to the first sampler, without
a look at the size of arrays. The answer goes with the list of routes: it is no where the list is empty and yes where
there is a route, and it fails only where the list does. -/
namespace ShaderTree

variable {α β γ ε : Type}

/-- The collection fails where the test does, and yields nothing where the test says no. A test that says yes stops
there, and knows nothing of what comes after. -/
inductive Foretells : (test : Except ε Bool) → (collection : Except ε (List β)) → Prop where
  | failure (cause : ε) : Foretells (.error cause) (.error cause)
  | nothing : Foretells (.ok false) (.ok [])
  | something (collection : Except ε (List β)) : Foretells (.ok true) collection

namespace Foretells

variable {test other : Except ε Bool} {collection more : Except ε (List β)}

theorem eq_error {cause : ε} (foretells : Foretells (.error cause) collection) : collection = .error cause := by
  cases foretells
  rfl

theorem eq_nil (foretells : Foretells (.ok false) collection) : collection = .ok [] := by
  cases foretells
  rfl

theorem map (foretells : Foretells test collection) (f : β → γ) : Foretells test (collection.map (List.map f)) := by
  cases foretells with
  | failure cause => exact .failure cause
  | nothing => exact .nothing
  | something collection => exact .something _

theorem append (first : Foretells test collection) (second : Foretells other more) :
    Foretells (do if ← test then return true else other)
      (do let here ← collection; let there ← more; return here ++ there) := by
  cases first with
  | failure cause => exact .failure cause
  | something collection => exact .something _
  | nothing =>
    cases second with
    | failure cause => exact .failure cause
    | nothing => exact .nothing
    | something more => exact .something _

theorem bind {computation : Except ε α} {next : α → Except ε Bool} {continued : α → Except ε (List β)}
    (each : ∀ value, Foretells (next value) (continued value)) :
    Foretells (computation >>= next) (computation >>= continued) := by
  cases computation with
  | error cause => exact .failure cause
  | ok value => exact each value

theorem any {sources : List γ} {source : γ → α} {test : α → Except ε Bool} {step : γ → Except ε (List β)}
    (each : ∀ item ∈ sources, Foretells (test (source item)) (step item)) :
    Foretells ((sources.map source).anyM test) (collectEach sources step) := by
  induction sources with
  | nil => exact .nothing
  | cons item items ih =>
    obtain ⟨first, rest⟩ := List.forall_mem_cons.mp each
    rw [List.map_cons, List.anyM_cons, collectEach_cons]
    exact first.append (ih rest)

/-- One test for all items, of which there is one at least. -/
theorem all {items : List α} {step : α → Except ε (List β)} (inhabited : items ≠ [])
    (each : ∀ item ∈ items, Foretells test (step item)) : Foretells test (collectEach items step) := by
  obtain ⟨item, items, rfl⟩ := List.exists_cons_of_ne_nil inhabited
  obtain ⟨first, rest⟩ := List.forall_mem_cons.mp each
  cases test with
  | error cause =>
    rw [collectEach_cons, first.eq_error]
    exact .failure cause
  | ok found =>
    cases found with
    | true => exact .something _
    | false =>
      rw [collectEach_nothing fun item among => (each item among).eq_nil]
      exact .nothing

end Foretells

theorem anyM_eq_true {items : List α} {test : α → Except ε Bool} (found : items.anyM test = .ok true) :
    ∃ item ∈ items, test item = .ok true := by
  induction items with
  | nil => cases found
  | cons item items ih =>
    rw [List.anyM_cons] at found
    obtain ⟨answer, here, rest⟩ := bind_eq_ok.mp found
    cases answer with
    | true => exact ⟨item, List.mem_cons_self, here⟩
    | false =>
      obtain ⟨other, among, there⟩ := ih rest
      exact ⟨other, List.mem_cons_of_mem _ among, there⟩

theorem Field.hops_ne_nil (field : Field) (place : Nat) : field.hops place ≠ [] := by
  unfold hops
  split
  · exact List.cons_ne_nil _ _
  · rename_i size _
    have positive := size.pos
    simp only [ne_eq, List.map_eq_nil_iff, List.range_eq_nil]
    omega

namespace Struct

variable {pool : Pool} {struct inner : Struct} {depth : Nat} {name apiName : String}

def fieldContains (pool : Pool) (inside : Struct → Except Fault Bool) (field : Field) : Except Fault Bool :=
  match field.ty.shape with
  | .sampler _ => .ok true
  | .struct ref => do
    match (← ref.resolve pool).asStruct? with
    | some inner => inside inner
    | none => return false
  | _ => .ok false

theorem containsWithin_succ : struct.containsWithin pool (depth + 1) =
    struct.fields.anyM (fieldContains pool (containsWithin pool depth)) := rfl

/-- A field is answered for as its hops are gone on with. -/
theorem fieldContains_foretells {hop : Hop} {contains : Struct → Except Fault Bool}
    {routes : Struct → Except Fault (List Route)} (inside : ∀ inner, Foretells (contains inner) (routes inner)) :
    Foretells (fieldContains pool contains hop.field) (routesBy pool routes hop) := by
  unfold fieldContains routesBy
  cases shape : hop.field.ty.shape with
  | sampler kind => exact .something _
  | struct ref =>
    refine .bind fun symbol => ?_
    cases symbol.asStruct? with
    | none => exact .nothing
    | some inner => exact (inside inner).map _
  | _ => exact .nothing

theorem containsWithin_foretells (pool : Pool) (depth : Nat) (struct : Struct) :
    Foretells (struct.containsWithin pool depth) (struct.routesWithin pool depth) := by
  induction depth generalizing struct with
  | zero => exact .failure _
  | succ depth ih =>
    rw [containsWithin_succ, ← List.zipIdx_map_fst 0 struct.fields, routesWithin, hops, collectEach_flatMap]
    -- the hops over one field differ in the element only, so that one answer goes for all of them
    refine .any fun item _ => .all (item.1.hops_ne_nil item.2) fun hop among => ?_
    obtain ⟨_, field, _⟩ := Field.mem_hops.mp among
    rw [← field]
    exact fieldContains_foretells ih

/-- A yes comes from a sampler that some route leads to. -/
theorem leads_of_containsWithin (found : struct.containsWithin pool depth = .ok true) :
    ∃ hops ty, Leads pool struct hops ty := by
  induction depth generalizing struct with
  | zero => cases found
  | succ depth ih =>
    obtain ⟨field, among, here⟩ := anyM_eq_true (containsWithin_succ.symm.trans found)
    obtain ⟨hop, enters, rfl⟩ := exists_hop among
    unfold fieldContains at here
    cases shape : hop.field.ty.shape with
    | sampler kind => exact ⟨_, _, .sampler enters shape⟩
    | struct ref =>
      rw [shape] at here
      obtain ⟨symbol, resolved, rest⟩ := bind_eq_ok.mp here
      cases is : symbol.asStruct? with
      | none =>
        rw [is] at rest
        cases rest
      | some inner =>
        rw [is] at rest
        obtain ⟨hops, ty, leads⟩ := ih rest
        exact ⟨_, _, .nested enters shape resolved is leads⟩
    | _ =>
      rw [shape] at here
      cases here

/-- Routes are listed where there are any. -/
theorem exists_leads_iff {routes : List Route} (listed : struct.routesWithin pool depth = .ok routes) :
    (∃ hops ty, Leads pool struct hops ty) ↔ routes ≠ [] := by
  constructor
  · rintro ⟨hops, ty, leads⟩
    have member : ⟨hops, ty⟩ ∈ routes := (routesWithin_leads listed).mpr leads
    exact List.ne_nil_of_mem member
  · intro inhabited
    obtain ⟨route, member⟩ := List.exists_mem_of_ne_nil routes inhabited
    exact ⟨route.hops, route.ty, (routesWithin_leads listed).mp member⟩

theorem routesWithin_eq_error {cause : Fault} (failed : struct.collectWithin pool depth name apiName = .error cause) :
    struct.routesWithin pool depth = .error cause := by
  rw [collectWithin_eq] at failed
  cases listed : struct.routesWithin pool depth with
  | error own =>
    rw [listed] at failed
    exact congrArg _ (Except.error.inj failed)
  | ok routes =>
    rw [listed] at failed
    cases failed

/-- A structure has samplers in it just if collecting them finds one, whatever the names are. Only a structure that is
missing from the pool is in the way of either, and then there still is a sampler if the answer is yes. -/
theorem containsSamplers_iff (acyclic : Acyclic pool.Embeds) :
    (¬ struct.Dangles pool → ∃ found, struct.containsSamplers pool = .ok found ∧
      (found = true ↔ ∃ hops ty, Leads pool struct hops ty) ∧
      ∀ name apiName, ∃ samplers, struct.collectSamplers pool name apiName = .ok samplers ∧
        (found = true ↔ samplers ≠ [])) ∧
    (struct.Dangles pool → (∀ name apiName, struct.collectSamplers pool name apiName = .error .outOfBounds) ∧
      (struct.containsSamplers pool = .error .outOfBounds ∨
        struct.containsSamplers pool = .ok true ∧ ∃ hops ty, Leads pool struct hops ty)) := by
  have foretells : Foretells (struct.containsSamplers pool) (struct.routesWithin pool pool.nesting) :=
    containsWithin_foretells pool pool.nesting struct
  obtain ⟨dangles, failed⟩ | ⟨whole, routes, listed, collected⟩ := @collectSamplers_cases pool struct acyclic
  · refine ⟨fun whole => absurd dangles whole, fun _ => ⟨failed, ?_⟩⟩
    rw [routesWithin_eq_error (failed "" "")] at foretells
    generalize answer : struct.containsSamplers pool = outcome at foretells
    cases foretells with
    | failure cause => exact .inl rfl
    | something collection => exact .inr ⟨rfl, leads_of_containsWithin answer⟩
  · refine ⟨fun _ => ?_, fun dangles => absurd dangles whole⟩
    have reached := exists_leads_iff listed
    obtain ⟨found, answer, agrees⟩ : ∃ found, struct.containsSamplers pool = .ok found ∧
        (found = true ↔ ∃ hops ty, Leads pool struct hops ty) := by
      rw [listed] at foretells
      generalize answer : struct.containsSamplers pool = outcome at foretells
      cases foretells with
      | nothing => exact ⟨false, rfl, by simpa using reached⟩
      | something collection => exact ⟨true, rfl, iff_of_true rfl (leads_of_containsWithin answer)⟩
    refine ⟨found, answer, agrees, fun name apiName => ⟨_, collected name apiName, ?_⟩⟩
    rw [agrees, reached, ne_eq, ne_eq, List.map_eq_nil_iff]

/-- What refers to a block counts for nothing, be it as a structure or as a block. -/
def shade : Struct where
  fields := [{ name := "cover", ty := .struct (.pool ⟨0⟩) }, { name := "frame", ty := { shape := .block (.pool ⟨0⟩) } },
    { name := "weights", ty := Ty.float.arrayOf { count := 5 } }]

def lamp : Struct where
  fields := [{ name := "shades", ty := (Ty.struct (.pool ⟨1⟩)).arrayOf { count := 5 } },
    { name := "maps", ty := (Ty.sampler .sampler2D).arrayOf { count := 5 } }]

def lampPool : Pool where
  items := #[
    { rawName := "Block", id := ⟨96⟩, origin := .userDefined,
      kind := .block (.ofLayout [{ name := "map", ty := .sampler .sampler2D }] {}) },
    { rawName := "Shade", id := ⟨97⟩, origin := .userDefined, kind := .struct shade },
    { rawName := "Lamp", id := ⟨98⟩, origin := .userDefined, kind := .struct lamp }]

theorem containsSamplers_iff_lamp : Acyclic lampPool.Embeds ∧ ¬ shade.Dangles lampPool ∧ ¬ lamp.Dangles lampPool ∧
    shade.containsSamplers lampPool = .ok false ∧ shade.collectSamplers lampPool "s" "u" = .ok [] ∧
    lamp.containsSamplers lampPool = .ok true ∧ ∃ samplers, lamp.collectSamplers lampPool "s" "u" = .ok samplers ∧
      samplers ≠ [] := by
  have acyclic : Acyclic lampPool.Embeds := (Arena.acyclic_of_isOrdered rfl).anti fun _ _ => Arena.Embeds.nests
  have plain : ¬ shade.Dangles lampPool := @not_dangles_of_routesWithin _ _ lampPool.nesting _ rfl
  have whole : ¬ lamp.Dangles lampPool := @not_dangles_of_routesWithin _ _ lampPool.nesting _ rfl
  obtain ⟨no, answer, _, none⟩ := (containsSamplers_iff acyclic).1 plain
  obtain ⟨yes, reply, _, some⟩ := (containsSamplers_iff acyclic).1 whole
  obtain rfl : false = no := Except.ok.inj answer
  obtain rfl : true = yes := Except.ok.inj reply
  obtain ⟨_, nothing, empty⟩ := none "s" "u"
  obtain ⟨samplers, collected, inhabited⟩ := some "s" "u"
  rw [Bool.false_eq_true, false_iff, not_not] at empty
  exact ⟨acyclic, plain, whole, answer, empty ▸ nothing, reply, samplers, collected, inhabited.mp rfl⟩

end Struct

end ShaderTree
