import ComponentGraph.Analysis
import ComponentGraph.Proofs.Agreement
import ComponentGraph.Proofs.Walking
import Mathlib.Data.List.Forall2
/-!
# Pages and views

A view that loads among all others loads alone, as a page, and its tree is the same: the others are
registered under paths with a slash, which no tag is looked for under. A view whose path begins
with `./` is another matter. As a page its path is normalized, and it names another file.
-/

namespace ComponentGraph

namespace Attempt

variable {α β : Type}

theorem exists_of_result_bind {x : Attempt α} {f : α → Attempt β} {b : β}
    (h : (x >>= f).result = .ok b) : ∃ a, x.result = .ok a ∧ (f a).result = .ok b := by
  cases hx : x.result with
  | error e =>
    rw [result_bind_error hx] at h
    cases h
  | ok a =>
    rw [result_bind_ok hx] at h
    exact ⟨a, rfl, h⟩

/-- A sequence of attempts of one kind succeeds if each of them does. -/
theorem forall₂_of_mapM {f : α → Attempt β} {as : List α} {bs : List β}
    (h : (as.mapM f).result = .ok bs) : List.Forall₂ (fun a b => (f a).result = .ok b) as bs := by
  induction as generalizing bs with
  | nil =>
    cases h
    exact .nil
  | cons a as ih =>
    rw [List.mapM_cons] at h
    obtain ⟨b, hb, h⟩ := exists_of_result_bind h
    obtain ⟨bs', hbs, h⟩ := exists_of_result_bind h
    cases h
    exact .cons hb (ih hbs)

theorem result_ofStorage (x : Logged (Except FileSystem.Error α)) :
    (ofStorage x).result = x.value.mapError Failure.ofStorage := rfl

theorem value_of_ofStorage {x : Logged (Except FileSystem.Error α)} {a : α}
    (h : (ofStorage x).result = .ok a) : x.value = .ok a := by
  rw [result_ofStorage] at h
  cases hx : x.value with
  | error e =>
    rw [hx] at h
    cases h
  | ok a' =>
    rw [hx] at h
    cases h
    rfl

end Attempt

theorem FileSystem.isFile_of_readText {fs : FileSystem} {path : Path} {source : String}
    (h : fs.readText path = .ok source) : fs.isFile path = true := by
  rw [readText] at h
  rw [isFile]
  split at h
  · cases h
  · cases h
  · cases h
  · rename_i hentry
    rw [hentry]

namespace Sources

variable {s s' : Sources} {name : String} {t : Tree}

theorem result_grow (s : Sources) (name : String) :
    (s.grow name).result =
      match (s.load (Tree.bare name)).value.failure with
      | none => .ok (s.load (Tree.bare name)).value.tree
      | some failure => .error failure := rfl

theorem load_of_grow (h : (s.grow name).result = .ok t) :
    (s.load (.bare name)).value.failure = none ∧ (s.load (.bare name)).value.tree = t := by
  rw [result_grow] at h
  split at h
  · rename_i hload
    exact ⟨hload, Except.ok.inj h⟩
  · cases h

/-- What is grown from a registered path was read there. -/
theorem exists_tags_of_grow {file : String} (hfile : s.registry.resolve? name = some file)
    (h : (s.grow name).result = .ok t) : ∃ tags, s.tags file = .ok tags := by
  cases htags : s.tags file with
  | ok tags => exact ⟨tags, rfl⟩
  | error failure =>
    have hload : s.load (Tree.bare name) = _ := loadBelow_broken hfile List.not_mem_nil htags
    rw [result_grow, hload] at h
    cases h

theorem isFile_of_tags {file : String} {tags : List String} (h : s.tags file = .ok tags) :
    ∃ path, s.project.locate file = .ok path ∧ s.project.files.isFile path = true := by
  rw [Sources.tags] at h
  split at h
  · cases h
  · rename_i path hlocate
    refine ⟨path, hlocate, ?_⟩
    split at h
    · cases h
    · rename_i source hread
      exact FileSystem.isFile_of_readText hread

end Sources

variable {p : Project} {componentsDir : String} {ignore : List String}

theorem page_of_tags {r : Registry} {reader : TemplateReader} {page : String}
    {tags : List String} (hcomponent : FileName.isComponent page = true)
    (htags : (⟨p, r, reader⟩ : Sources).tags page = .ok tags) : ∃ path, p.page page = .ok path := by
  obtain ⟨path, hlocate, hfile⟩ := Sources.isFile_of_tags htags
  refine ⟨path, ?_⟩
  rw [Project.page, if_pos hcomponent, hlocate]
  exact if_pos hfile

/-- One of the views is loaded with all of them registered; as a page it is registered alone. -/
theorem analyzePage_of_grow {components : Registry} {views : List String} {view : String}
    {t : Tree} (hcomponents : (Attempt.ofStorage (setupRegistry p componentsDir ignore)).result =
      .ok components)
    (hslash : ∀ v ∈ views, '/' ∈ v.toList) (hview : view ∈ views)
    (hcomponent : FileName.isComponent view = true) (hnormal : normalize view = view)
    (hgrow : (Sources.grow ⟨p, components.setAll (views.map fun v => (v, v)), .markup⟩
      view).result = .ok t) :
    (analyzePage p view componentsDir ignore).result = .ok ⟨components.set view view, [t]⟩ := by
  have hamong : (components.setAll (views.map fun v => (v, v))).get? view = some view := by
    rw [Registry.get?_setAll_self, if_pos hview]
  have halone : (components.set view view).get? view = some view := by
    rw [Registry.get?_set, if_pos rfl]
  have hagree : Sources.Agree ⟨p, components.setAll (views.map fun v => (v, v)), .markup⟩
      ⟨p, components.set view view, .markup⟩ := by
    refine Sources.agree_markup p fun key hkey => ?_
    have hviews : key ∉ views := fun hmem => hkey (hslash key hmem)
    have hne : key ≠ view := fun heq => hviews (heq ▸ hview)
    rw [Registry.get?_setAll_self, if_neg hviews, Registry.get?_set, if_neg hne]
  have hload := hagree.loadBelow []
    ((Registry.resolve?_of_get? hamong).trans (Registry.resolve?_of_get? halone).symm)
  have htree : (Sources.grow ⟨p, components.set view view, .markup⟩ view).result = .ok t := by
    rw [Sources.result_grow, Sources.load, ← hload]
    exact hgrow
  obtain ⟨tags, htags⟩ := Sources.exists_tags_of_grow (Registry.resolve?_of_get? hamong) hgrow
  obtain ⟨path, hpage⟩ := page_of_tags hcomponent htags
  have hpath : (Attempt.ofResult (p.page view)).result = .ok path := hpage
  rw [analyzePage, Attempt.result_bind_ok hpath, Attempt.result_bind_ok hcomponents]
  simp only [hnormal]
  rw [Attempt.result_bind_ok htree]
  rfl

/-- A view that loads among others loads alone, and as the same tree, unless its path begins with
`./`. -/
theorem analyzePage_of_analyzeViews {viewsDir : String} {a : Analysis} {views : List String}
    (hanalysis : (analyzeViews p viewsDir componentsDir ignore).result = .ok a)
    (hviews : (Walk.through p viewsDir ignore).files.value = .ok views)
    (hslash : ∀ v ∈ views, '/' ∈ v.toList) :
    List.Forall₂ (fun v t => ¬ ['.', '/'] <+: v.toList → ∃ registry,
      (analyzePage p v componentsDir ignore).result = .ok ⟨registry, [t]⟩) views a.trees := by
  rw [analyzeViews] at hanalysis
  obtain ⟨components, hcomponents, hrest⟩ := Attempt.exists_of_result_bind hanalysis
  obtain ⟨found, hfound, hrest⟩ := Attempt.exists_of_result_bind hrest
  obtain ⟨_, -, hrest⟩ := Attempt.exists_of_result_bind hrest
  obtain ⟨trees, htrees, hrest⟩ := Attempt.exists_of_result_bind hrest
  cases hrest
  obtain rfl : found = views :=
    Except.ok.inj ((Attempt.value_of_ofStorage hfound).symm.trans hviews)
  have hgrown := (List.forall₂_and_left _ _).mpr
    ⟨fun v (hv : v ∈ found) => hv, Attempt.forall₂_of_mapM htrees⟩
  refine hgrown.imp fun v t ⟨hv, hgrow⟩ hhere => ?_
  obtain ⟨hcomponent, path, rfl⟩ := Walk.mem_files hviews hv
  exact ⟨_, analyzePage_of_grow hcomponents hslash hv hcomponent
    (normalize_relativeTo hcomponent hhere) hgrow⟩

/-! ## A project with two views -/

/-- One view mentions a component, the other mentions the name of the first view. -/
def shop : Project where
  base := Path.root
  files :=
    { medium := .memory
      entries :=
        [(Path.root, .directory),
          (⟨["components"], by decide⟩, .directory),
          (⟨["components", "Box.vue"], by decide⟩, .file (.text "")),
          (⟨["views"], by decide⟩, .directory),
          (⟨["views", "Cart.vue"], by decide⟩, .file (.text "<template><Box/></template>")),
          (⟨["views", "Home.vue"], by decide⟩, .file (.text "<template><Cart/></template>"))]
      distinct := by decide }

def shopViews : List String := ["views/Cart.vue", "views/Home.vue"]

def shopAnalysis : Analysis where
  registry := .ofList [("Box", "components/Box.vue"), ("views/Cart.vue", "views/Cart.vue"),
    ("views/Home.vue", "views/Home.vue")]
  trees := [.withEdges "views/Cart.vue" [.bare "Box"], .bare "views/Home.vue"]

theorem files_shop : (Walk.through shop "views" []).files.value = .ok shopViews := by
  have hchildren : shop.files.children ⟨["views"], by decide⟩ =
      [⟨["views", "Cart.vue"], by decide⟩, ⟨["views", "Home.vue"], by decide⟩] := by
    decide +kernel
  exact Walk.files_of_ordered (by decide +kernel) (by decide +kernel) hchildren
    (by decide +kernel) (by decide +kernel) (by decide +kernel)

deriving instance DecidableEq for Analysis

theorem analyzeViews_shop :
    (analyzeViews shop "views" "components" []).result = .ok shopAnalysis := by
  have hcomponents : (Attempt.ofStorage (setupRegistry shop "components" [])).result =
      .ok (.ofList [("Box", "components/Box.vue")]) := by
    decide +kernel
  have hviews : (Attempt.ofStorage (Walk.through shop "views" []).files).result =
      .ok shopViews := by
    rw [Attempt.result_ofStorage, files_shop]
    rfl
  rw [analyzeViews, Attempt.result_bind_ok hcomponents, Attempt.result_bind_ok hviews]
  decide +kernel

theorem analyzePage_of_analyzeViews_shop :
    List.Forall₂ (fun v t => ¬ ['.', '/'] <+: v.toList → ∃ registry,
      (analyzePage shop v "components" []).result = .ok ⟨registry, [t]⟩)
      shopViews shopAnalysis.trees :=
  analyzePage_of_analyzeViews analyzeViews_shop files_shop (by decide +kernel)

/-- Beside the base there is a directory with the name of the base and a dot more. -/
def twin : Project where
  base := ⟨["proj"], by decide⟩
  files :=
    { medium := .memory
      entries :=
        [(⟨["proj"], by decide⟩, .directory),
          (⟨["proj", "components"], by decide⟩, .directory),
          (⟨["proj", "x.vue"], by decide⟩, .file (.text "<template><x.vue/></template>")),
          (⟨["proj."], by decide⟩, .directory),
          (⟨["proj.", "x.vue"], by decide⟩, .file (.text "<template><p/></template>"))]
      distinct := by decide }

/-- The view beside the base is taken for a file of the base, under a path that begins with `./`.
As a page that file is registered without, and mentions itself. -/
theorem analyzePage_beside_base :
    (analyzeViews twin "../proj." "components" []).result =
        .ok ⟨.ofList [("./x.vue", "./x.vue")], [.bare "./x.vue"]⟩ ∧
      (analyzePage twin "./x.vue" "components" []).result =
        .ok ⟨.ofList [("x.vue", "x.vue")], [.withEdges "x.vue" [.bare "x.vue"]]⟩ := by
  constructor
  · decide +kernel
  · decide +kernel

end ComponentGraph
