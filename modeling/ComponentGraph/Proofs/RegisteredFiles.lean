import ComponentGraph.Proofs.BrokenFiles
import ComponentGraph.Proofs.PageAndViews
/-!
# What an analysis registers

An analysis registers the component files that a walk found, each shown relative to the base, and
then its page under the page's own path, or each view under its own. Every tree of the analysis grew
from a registered name, with all of that registry. A registered path leads to the same file whether
it is followed as it is or normalized first.
-/

namespace ComponentGraph

variable {p : Project} {componentsDir viewsDir page : String} {ignore : List String}
  {components : Registry} {a : Analysis}

theorem exists_of_mem_forall₂ {α β : Type} {R : α → β → Prop} {as : List α} {bs : List β}
    (h : List.Forall₂ R as bs) {b : β} (hb : b ∈ bs) : ∃ a ∈ as, R a b := by
  induction h with
  | nil => cases hb
  | cons hfirst _ ih =>
    rcases List.mem_cons.mp hb with rfl | hb
    · exact ⟨_, List.mem_cons_self, hfirst⟩
    · obtain ⟨a, ha, hab⟩ := ih hb
      exact ⟨a, List.mem_cons_of_mem _ ha, hab⟩

/-- Registering files adds no other paths than theirs. -/
theorem get?_registerFiles {r : Registry} {files : List String} {key path : String}
    (h : (registerFiles r files).value.get? key = some path) :
    r.get? key = some path ∨ path ∈ files := by
  induction files generalizing r with
  | nil => exact .inl h
  | cons file rest ih =>
    rw [registerFiles] at h
    cases hstem : FileName.stem? file with
    | none =>
      simp only [hstem] at h
      exact (ih h).imp_right (List.mem_cons_of_mem file)
    | some stem =>
      have hset : (registerFiles (r.set stem file) rest).value.get? key = some path := by
        simp only [hstem] at h
        split at h
        · exact h
        · exact h
      rcases ih hset with hold | hmem
      · rw [Registry.get?_set] at hold
        split at hold
        · exact .inr (Option.some.inj hold ▸ List.mem_cons_self)
        · exact .inl hold
      · exact .inr (List.mem_cons_of_mem file hmem)

theorem exists_files_of_setupRegistry
    (h : (setupRegistry p componentsDir ignore).value = .ok components) :
    ∃ files, (Walk.through p componentsDir ignore).files.value = .ok files ∧
      components = (registerFiles Registry.empty files).value := by
  rw [setupRegistry, Logged.value_bind, discoverComponents, Logged.value_bind] at h
  cases hfiles : (Walk.through p componentsDir ignore).files.value with
  | error e =>
    rw [hfiles] at h
    cases h
  | ok files =>
    rw [hfiles] at h
    exact ⟨files, rfl, (Except.ok.inj h).symm⟩

/-- The path of a component is what a component file is shown as. -/
theorem exists_relativeTo_of_setupRegistry
    (h : (setupRegistry p componentsDir ignore).value = .ok components) {key path : String}
    (hpath : components.get? key = some path) :
    FileName.isComponent path = true ∧ ∃ q, path = p.base.relativeTo q := by
  obtain ⟨files, hfiles, rfl⟩ := exists_files_of_setupRegistry h
  rcases get?_registerFiles hpath with hold | hmem
  · cases hold
  · exact Walk.mem_files hfiles hmem

theorem exists_of_analyzePage (h : (analyzePage p page componentsDir ignore).result = .ok a) :
    ∃ components t, (setupRegistry p componentsDir ignore).value = .ok components ∧
      a = ⟨components.set (normalize page) (normalize page), [t]⟩ ∧
      (Sources.grow ⟨p, a.registry, .markup⟩ (normalize page)).result = .ok t := by
  rw [analyzePage] at h
  obtain ⟨_, -, h⟩ := Attempt.exists_of_result_bind h
  obtain ⟨components, hcomponents, h⟩ := Attempt.exists_of_result_bind h
  obtain ⟨t, ht, h⟩ := Attempt.exists_of_result_bind h
  cases h
  exact ⟨components, t, Attempt.value_of_ofStorage hcomponents, rfl, ht⟩

theorem exists_of_analyzeViews
    (h : (analyzeViews p viewsDir componentsDir ignore).result = .ok a) :
    ∃ components views, (setupRegistry p componentsDir ignore).value = .ok components ∧
      (Walk.through p viewsDir ignore).files.value = .ok views ∧
      a.registry = components.setAll (views.map fun view => (view, view)) ∧
      List.Forall₂ (fun view t => (Sources.grow ⟨p, a.registry, .markup⟩ view).result = .ok t)
        views a.trees := by
  rw [analyzeViews] at h
  obtain ⟨components, hcomponents, h⟩ := Attempt.exists_of_result_bind h
  obtain ⟨views, hviews, h⟩ := Attempt.exists_of_result_bind h
  obtain ⟨_, -, h⟩ := Attempt.exists_of_result_bind h
  obtain ⟨trees, htrees, h⟩ := Attempt.exists_of_result_bind h
  cases h
  exact ⟨components, views, Attempt.value_of_ofStorage hcomponents,
    Attempt.value_of_ofStorage hviews, rfl, Attempt.forall₂_of_mapM htrees⟩

/-- Each tree grew from a registered name, and registered paths are followed as they are. -/
structure Analysis.IsGrown (p : Project) (a : Analysis) : Prop where
  grown : ∀ t ∈ a.trees, ∃ name, (a.registry.get? name).isSome = true ∧
    (Sources.grow ⟨p, a.registry, .markup⟩ name).result = .ok t
  followed : ∀ key path, a.registry.get? key = some path →
    p.base.join? (normalize path) = p.base.join? path

theorem isGrown_of_analyzePage
    (h : (analyzePage p page componentsDir ignore).result = .ok a) : a.IsGrown p := by
  obtain ⟨components, t, hcomponents, rfl, ht⟩ := exists_of_analyzePage h
  constructor
  · intro u hu
    obtain rfl := List.mem_singleton.mp hu
    exact ⟨normalize page, by rw [Registry.get?_set, if_pos rfl]; rfl, ht⟩
  · intro key path hpath
    rw [Registry.get?_set] at hpath
    split at hpath
    · obtain rfl := Option.some.inj hpath
      rw [normalize_normalize]
    · obtain ⟨-, q, rfl⟩ := exists_relativeTo_of_setupRegistry hcomponents hpath
      exact p.base.join?_normalize_relativeTo q

theorem isGrown_of_analyzeViews
    (h : (analyzeViews p viewsDir componentsDir ignore).result = .ok a) : a.IsGrown p := by
  obtain ⟨components, views, hcomponents, hviews, hregistry, htrees⟩ := exists_of_analyzeViews h
  have hget := fun key => components.get?_setAll_self views key
  rw [← hregistry] at hget
  constructor
  · intro t ht
    obtain ⟨view, hview, hgrow⟩ := exists_of_mem_forall₂ htrees ht
    exact ⟨view, by rw [hget, if_pos hview]; rfl, hgrow⟩
  · intro key path hpath
    have hshown : ∃ q, path = p.base.relativeTo q := by
      rw [hget] at hpath
      split at hpath
      · rename_i hview
        obtain rfl := Option.some.inj hpath
        exact (Walk.mem_files hviews hview).2
      · exact (exists_relativeTo_of_setupRegistry hcomponents hpath).2
    obtain ⟨q, rfl⟩ := hshown
    exact p.base.join?_normalize_relativeTo q

end ComponentGraph
