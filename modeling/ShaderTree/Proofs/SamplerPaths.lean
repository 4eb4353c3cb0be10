import ShaderTree.Proofs.SamplerRoutes

/-! The paths that samplers have for programs. Dots and brackets mark the steps of a path, so that where names of
fields have no such marks and differ in each structure, paths tell the samplers of a structure apart. -/
namespace ShaderTree

namespace Struct

variable {pool : Pool} {struct inner : Struct} {hops others : List Hop} {ty last : Ty}

/-- The fields have different names, without the marks of paths. -/
def IsPlain (struct : Struct) : Prop := (struct.fields.map Field.name).Nodup ∧
  ∀ field ∈ struct.fields, '.' ∉ field.name.toList ∧ '[' ∉ field.name.toList

theorem place_eq_of_name {one other : Hop} (names : (struct.fields.map Field.name).Nodup) (enters : one.Enters struct)
    (again : other.Enters struct) (same : one.field.name = other.field.name) : one.place = other.place := by
  have name_at {hop : Hop} (enters : hop.Enters struct) : (struct.fields.map Field.name)[hop.place]? = some hop.field.name := by
    rw [List.getElem?_map, enters.1]
    rfl
  obtain ⟨_, here⟩ := List.getElem?_eq_some_iff.mp (name_at enters)
  obtain ⟨_, there⟩ := List.getElem?_eq_some_iff.mp (name_at again)
  exact names.getElem_inj_iff.mp (here.trans (same.trans there.symm))

theorem Leads.path_inj (plain : ∀ inner, struct.Reaches pool inner → inner.IsPlain) (one : Leads pool struct hops ty)
    (other : Leads pool struct others last) (same : Spelling.dotted.write hops = Spelling.dotted.write others) :
    hops = others := by
  by_contra apart
  obtain ⟨inner, front, first, rest, second, more, reaches, rfl, rfl, elsewhere, here, there, texts⟩ :=
    one.part_of_write Spelling.dotted_clear other apart same
  obtain ⟨names, marks⟩ := plain inner reaches
  have unmarked : ∀ hop : Hop, hop.Enters inner → ∀ char ∈ hop.field.name.toList, ¬ (char = '.' ∨ char = '[') := by
    rintro hop enters char member (rfl | rfl)
    · exact (marks hop.field enters.mem).1 member
    · exact (marks hop.field enters.mem).2 member
  obtain ⟨name, _⟩ := cut_at_mark (unmarked first here.enters) (unmarked second there.enters) Spelling.tail_marked
    Spelling.tail_marked texts
  exact elsewhere (place_eq_of_name names here.enters there.enters (String.toList_inj.mp name))

theorem Leads.isSampler (leads : Leads pool struct hops ty) : (∃ kind, ty.shape = .sampler kind) ∧ ty.array = none := by
  induction leads with
  | sampler _ shape => exact ⟨⟨_, shape⟩, rfl⟩
  | nested _ _ _ _ _ ih => exact ih

theorem not_precedes_self (hops : List Hop) : ¬ List.Lex Hop.Precedes hops hops := by
  intro before
  induction hops with
  | nil => cases before
  | cons hop hops ih =>
    cases before with
    | rel earlier =>
      rcases earlier with earlier | ⟨_, first, second, one, other, earlier⟩
      · exact Nat.lt_irrefl _ earlier
      · cases one.symm.trans other
        exact Nat.lt_irrefl _ earlier
    | cons rest => exact ih rest

/-- Collecting the samplers of a structure enumerates its routes to samplers: each of them once, in the order of
fields and elements, with the type at its end and with names that are read off it. Only a structure that is
missing from the pool is in the way. Paths are different if names of fields are and have no marks. -/
theorem collectSamplers_routes (acyclic : Acyclic pool.Embeds) :
    (struct.Dangles pool → ∀ name apiName, struct.collectSamplers pool name apiName = .error .outOfBounds) ∧
    (¬ struct.Dangles pool → ∃ routes : List Route,
      (∀ name apiName, struct.collectSamplers pool name apiName = .ok (routes.map (Route.sampler name apiName))) ∧
      (∀ hops ty, ⟨hops, ty⟩ ∈ routes ↔ Leads pool struct hops ty) ∧
      (routes.map Route.hops).Nodup ∧
      (routes.Pairwise fun one other => List.Lex Hop.Precedes one.hops other.hops) ∧
      (∀ route ∈ routes, (∃ kind, route.ty.shape = .sampler kind) ∧ route.ty.array = none) ∧
      ((∀ inner, struct.Reaches pool inner → inner.IsPlain) → ∀ name apiName,
        ((routes.map (Route.sampler name apiName)).map SamplerField.apiName).Nodup)) := by
  obtain ⟨dangles, failed⟩ | ⟨whole, routes, listed, collected⟩ := @collectSamplers_cases pool struct acyclic
  · exact ⟨fun _ => failed, fun whole => absurd dangles whole⟩
  refine ⟨fun dangles => absurd dangles whole, fun _ => ⟨routes, collected, fun hops ty => routesWithin_leads listed, ?_⟩⟩
  have sorted := routesWithin_pairwise listed
  have different : (routes.map Route.hops).Nodup := by
    refine List.pairwise_map.mpr (sorted.imp fun before same => ?_)
    rw [same] at before
    exact not_precedes_self _ before
  refine ⟨different, sorted, fun route member => ((routesWithin_leads listed).mp member).isSampler, ?_⟩
  intro plain name apiName
  rw [List.map_map]
  refine List.pairwise_map.mpr ((List.pairwise_map.mp different).imp_of_mem fun {one other} left right apart same => ?_)
  refine apart (Leads.path_inj plain ((routesWithin_leads listed).mp left) ((routesWithin_leads listed).mp right) ?_)
  simpa [Route.sampler] using same

def material : Struct where
  fields := [{ name := "maps", ty := (Ty.sampler .sampler2D).arrayOf { count := 3 } }, { name := "scale", ty := .float }]

def scene : Struct where
  fields := [{ name := "sky", ty := .sampler .samplerCube },
    { name := "materials", ty := (Ty.struct (.pool ⟨0⟩)).arrayOf { count := 3 } }]

def scenePool : Pool where
  items := #[{ rawName := "Material", id := ⟨96⟩, origin := .userDefined, kind := .struct material }]

theorem scenePool_acyclic : Acyclic scenePool.Embeds :=
  (Arena.acyclic_of_isOrdered rfl).anti fun _ _ => Arena.Embeds.nests

theorem scene_reaches (reaches : scene.Reaches scenePool inner) : inner ∈ [scene, material] :=
  reaches.mem_of_closed List.mem_cons_self (by decide)

theorem collectSamplers_routes_scene : Acyclic scenePool.Embeds ∧ ¬ scene.Dangles scenePool ∧
    (∀ inner, scene.Reaches scenePool inner → inner.IsPlain) ∧
    (scene.collectSamplers scenePool "s" "u").map (List.map fun sampler => (sampler.name, sampler.apiName)) =
      .ok [("s_sky", "u.sky"), ("s_materials_0_maps_0", "u.materials[0].maps[0]"),
        ("s_materials_0_maps_1", "u.materials[0].maps[1]"), ("s_materials_0_maps_2", "u.materials[0].maps[2]"),
        ("s_materials_1_maps_0", "u.materials[1].maps[0]"), ("s_materials_1_maps_1", "u.materials[1].maps[1]"),
        ("s_materials_1_maps_2", "u.materials[1].maps[2]"), ("s_materials_2_maps_0", "u.materials[2].maps[0]"),
        ("s_materials_2_maps_1", "u.materials[2].maps[1]"), ("s_materials_2_maps_2", "u.materials[2].maps[2]")] ∧
    ∃ routes : List Route, scene.collectSamplers scenePool "s" "u" = .ok (routes.map (Route.sampler "s" "u")) ∧
      (routes.map Route.hops).Nodup ∧ ((routes.map (Route.sampler "s" "u")).map SamplerField.apiName).Nodup := by
  obtain ⟨missing, listed⟩ := @collectSamplers_routes scenePool scene scenePool_acyclic
  have whole : ¬ scene.Dangles scenePool := fun dangles => by cases missing dangles "s" "u"
  have plain : ∀ inner, scene.Reaches scenePool inner → inner.IsPlain := by
    intro inner reaches
    have known := scene_reaches reaches
    simp only [List.mem_cons, List.not_mem_nil, or_false] at known
    rcases known with rfl | rfl <;> exact ⟨by decide, by decide⟩
  obtain ⟨routes, collected, _, different, _, _, paths⟩ := listed whole
  exact ⟨scenePool_acyclic, whole, plain, rfl, routes, collected "s" "u", different, paths plain "s" "u"⟩

end Struct

end ShaderTree
