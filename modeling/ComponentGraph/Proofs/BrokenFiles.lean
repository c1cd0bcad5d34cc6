import ComponentGraph.Proofs.CycleWarnings
import ComponentGraph.Proofs.NormalizedPaths
/-!
# Broken files

A file is broken if it is no text, or if its template cannot be extracted or compiled. Loading fails
exactly if a broken file can be reached, and the failure names one. Chains are cut where a file is
active, but nothing escapes by that: what lies behind an active file is reached from where the file
was entered, along references that do not come back to it.
-/

namespace ComponentGraph

theorem Failure.head?_chain {failure : Failure} {doing : Doing}
    (h : failure.doing = some doing) : failure.chain.head? = some doing.message := by
  rw [chain, h]
  rfl

/-- If loading edges fails, then it fails as one of their children does. -/
theorem exists_edge_of_failure {load : Tree → Logged Loaded} {edges : List (String × Tree)}
    {failure : Failure} (h : (loadEdges load edges).value.2 = some failure) :
    ∃ edge ∈ edges, (load edge.2).value.failure = some failure := by
  induction edges with
  | nil => cases h
  | cons edge rest ih =>
    obtain ⟨key, child⟩ := edge
    cases hchild : (load child).value.failure with
    | some first =>
      rw [value_loadEdges_stopped hchild] at h
      exact ⟨_, List.mem_cons_self, hchild.trans h⟩
    | none =>
      rw [value_loadEdges_next hchild] at h
      obtain ⟨edge, hedge, hfailed⟩ := ih h
      exact ⟨edge, List.mem_cons_of_mem _ hedge, hfailed⟩

namespace Sources

variable {s : Sources} {active : List String} {file name : String} {failure : Failure}

/-! ## What is wrong with a file -/

/-- The text of a file. -/
def Holds (s : Sources) (file source : String) : Prop :=
  ∃ path, s.project.locate file = .ok path ∧ s.project.files.readText path = .ok source

/-- There is no text to be read. -/
def Unreadable (s : Sources) (file : String) : Prop := ∀ source, ¬ s.Holds file source

/-- There is a text, but its template cannot be extracted, or it cannot be compiled. -/
def Malformed (s : Sources) (file : String) : Prop :=
  ∃ source, s.Holds file source ∧
    ((∃ e, s.reader.template? source = .error e) ∨
      ∃ template e, s.reader.template? source = .ok (some template) ∧
        s.reader.compile template = .error e)

/-- A failure at a broken file, and what it says was being done. -/
def FailsAt (s : Sources) (file : String) (failure : Failure) : Prop :=
  s.Unreadable file ∧ failure.doing = some (.reading file) ∨
    s.Malformed file ∧ failure.doing = some (.parsing file)

/-- There is a text, and a template in it, if there is one, is compiled. -/
def Sound (s : Sources) (file : String) : Prop :=
  ∃ source template?, s.Holds file source ∧ s.reader.template? source = .ok template? ∧
    ∀ template, template? = some template → ∃ roots, s.reader.compile template = .ok roots

theorem holds_unique {source source' : String} (h : s.Holds file source)
    (h' : s.Holds file source') : source = source' := by
  obtain ⟨path, hlocate, hread⟩ := h
  obtain ⟨path', hlocate', hread'⟩ := h'
  obtain rfl := Except.ok.inj (hlocate.symm.trans hlocate')
  exact Except.ok.inj (hread.symm.trans hread')

theorem tags_of_holds {source : String} (h : s.Holds file source) :
    s.tags file =
      match s.reader.template? source with
      | .error e => .error ⟨.malformed e, some (.parsing file)⟩
      | .ok none => .ok []
      | .ok (some template) =>
        match s.reader.compile template with
        | .error e => .error ⟨.malformed e, some (.parsing file)⟩
        | .ok roots => .ok (Element.mentioned roots) := by
  obtain ⟨path, hlocate, hread⟩ := h
  rw [tags, hlocate]
  dsimp only
  rewrite [hread]
  rfl

/-- A file is a text or fails to be read as one. -/
theorem holds_or_tags (s : Sources) (file : String) :
    (∃ source, s.Holds file source) ∨
      s.Unreadable file ∧ ∃ e, s.tags file = .error ⟨.storage e, some (.reading file)⟩ := by
  obtain ⟨path, hlocate⟩ := s.project.exists_locate file
  cases hread : s.project.files.readText path with
  | ok source => exact .inl ⟨source, path, hlocate, hread⟩
  | error e =>
    refine .inr ⟨?_, e, ?_⟩
    · rintro source ⟨path', hlocate', hread'⟩
      obtain rfl := Except.ok.inj (hlocate.symm.trans hlocate')
      cases hread.symm.trans hread'
    · rw [tags, hlocate]
      simp only [hread]

theorem failsAt_of_tags (h : s.tags file = .error failure) : s.FailsAt file failure := by
  rcases s.holds_or_tags file with ⟨source, hholds⟩ | ⟨hunreadable, e, htags⟩
  · rw [tags_of_holds hholds] at h
    split at h
    · rename_i e htemplate
      cases h
      exact .inr ⟨⟨source, hholds, .inl ⟨e, htemplate⟩⟩, rfl⟩
    · cases h
    · rename_i template htemplate
      split at h
      · rename_i e hcompile
        cases h
        exact .inr ⟨⟨source, hholds, .inr ⟨template, e, htemplate, hcompile⟩⟩, rfl⟩
      · cases h
  · obtain rfl := Except.error.inj (htags.symm.trans h)
    exact .inl ⟨hunreadable, rfl⟩

theorem sound_of_tags {found : List String} (h : s.tags file = .ok found) : s.Sound file := by
  rcases s.holds_or_tags file with ⟨source, hholds⟩ | ⟨-, e, htags⟩
  · rw [tags_of_holds hholds] at h
    split at h
    · cases h
    · rename_i htemplate
      exact ⟨source, none, hholds, htemplate, fun _ hsome => nomatch hsome⟩
    · rename_i template htemplate
      split at h
      · cases h
      · rename_i roots hcompile
        refine ⟨source, some template, hholds, htemplate, fun t hsome => ⟨roots, ?_⟩⟩
        rwa [← Option.some.inj hsome]
  · rw [htags] at h
    cases h

theorem Sound.not_unreadable (h : s.Sound file) : ¬ s.Unreadable file := by
  obtain ⟨source, _, hholds, _⟩ := h
  exact fun hunreadable => hunreadable source hholds

theorem Sound.not_malformed (h : s.Sound file) : ¬ s.Malformed file := by
  obtain ⟨source, template?, hholds, htemplate, hcompile⟩ := h
  rintro ⟨source', hholds', hfault⟩
  obtain rfl := holds_unique hholds hholds'
  rcases hfault with ⟨e, he⟩ | ⟨template, e, htemplate', he⟩
  · cases htemplate.symm.trans he
  · obtain rfl := Except.ok.inj (htemplate.symm.trans htemplate')
    obtain ⟨roots, hroots⟩ := hcompile template rfl
    cases hroots.symm.trans he

/-! ## What loading reads -/

/-- A reference to a file that is not active. -/
def RefersPast (s : Sources) (active : List String) (file other : String) : Prop :=
  s.RefersTo file other ∧ other ∉ active

/-- What is reached from a file is the file itself, or is reached from one of its references without
coming back to it. -/
theorem exists_reference_past {f : String}
    (h : Relation.ReflTransGen (s.RefersPast active) file f) :
    f = file ∨ ∃ g, s.RefersPast (file :: active) file g ∧
      Relation.ReflTransGen (s.RefersPast (file :: active)) g f := by
  induction h with
  | refl => exact .inl rfl
  | @tail g f _ hlast ih =>
    by_cases hback : f = file
    · exact .inl hback
    · have hpast : s.RefersPast (file :: active) g f :=
        ⟨hlast.1, by simp [hback, hlast.2]⟩
      rcases ih with rfl | ⟨g', hfirst, hrest⟩
      · exact .inr ⟨f, hpast, .refl⟩
      · exact .inr ⟨g', hfirst, hrest.tail hpast⟩

/-- If loading succeeds, it has read every file that is reached past the active ones. -/
theorem exists_tags_of_loadBelow {f : String} (hfile : s.registry.resolve? name = some file)
    (hactive : file ∉ active) (hload : (s.loadBelow active (.bare name)).value.failure = none)
    (hreach : Relation.ReflTransGen (s.RefersPast active) file f) :
    ∃ tags, s.tags f = .ok tags := by
  generalize hnode : Tree.bare name = node at hload
  induction active, node using loadBelow.induct s generalizing file name with
  | case1 active node hnone =>
    subst hnode
    exact absurd (hnone.symm.trans hfile) (by simp)
  | case2 active node found hfound hmem =>
    subst hnode
    obtain rfl := Option.some.inj (hfound.symm.trans hfile)
    exact absurd hmem hactive
  | case3 active node found hfound hfresh ih =>
    subst hnode
    obtain rfl := Option.some.inj (hfound.symm.trans hfile)
    cases htags : s.tags found with
    | error failure =>
      rw [loadBelow_broken hfound hfresh htags] at hload
      cases hload
    | ok tags =>
      -- The file is read here, or it lies behind a reference that is followed past this one.
      rcases exists_reference_past hreach with rfl | ⟨g, ⟨⟨key, hrefers, hg⟩, hpast⟩, hrest⟩
      · exact ⟨tags, htags⟩
      · rcases hkeys : s.registry.references tags with ⟨keys, told⟩
        have hkey : key ∈ keys := by rwa [refers_iff_mem_references htags, hkeys] at hrefers
        rcases hedges : loadEdges (s.loadBelow (found :: active))
          ((Tree.bare name).addEdges (keys.map Tree.bare)).edges with ⟨⟨edges, failure⟩, below⟩
        rw [loadBelow_expanded hfound hfresh htags hkeys (List.ne_nil_of_mem hkey) hedges] at hload
        have hchildren := (loadEdges_ok (by rw [hedges]; exact hload)).1
        exact ih (.bare key) (Registry.resolve?_of_get? hg) hpast hrest rfl
          (hchildren _ (mem_edges_bare.mpr ⟨rfl, hkey⟩))

theorem exists_tags_of_load {f : String} (hfile : s.registry.resolve? name = some file)
    (hload : (s.load (.bare name)).value.failure = none)
    (hreach : Relation.ReflTransGen s.RefersTo file f) : ∃ tags, s.tags f = .ok tags := by
  refine exists_tags_of_loadBelow hfile List.not_mem_nil hload ?_
  exact Relation.ReflTransGen.mono (fun _ _ h => ⟨h, List.not_mem_nil⟩) file f hreach

/-- If loading fails, it does so at a file that can be reached. -/
theorem exists_file_of_failure (hfile : s.registry.resolve? name = some file)
    (hload : (s.loadBelow active (.bare name)).value.failure = some failure) :
    ∃ f, Relation.ReflTransGen s.RefersTo file f ∧ s.tags f = .error failure := by
  generalize hnode : Tree.bare name = node at hload
  induction active, node using loadBelow.induct s generalizing file name with
  | case1 active node hnone =>
    subst hnode
    exact absurd (hnone.symm.trans hfile) (by simp)
  | case2 active node found hfound hactive =>
    subst hnode
    rw [loadBelow_active hfound hactive] at hload
    cases hload
  | case3 active node found hfound hactive ih =>
    subst hnode
    obtain rfl := Option.some.inj (hfound.symm.trans hfile)
    cases htags : s.tags found with
    | error first =>
      rw [loadBelow_broken hfound hactive htags] at hload
      exact ⟨found, .refl, htags.trans (congrArg _ (Option.some.inj hload))⟩
    | ok tags =>
      rcases hkeys : s.registry.references tags with ⟨keys, told⟩
      by_cases hne : keys = []
      · subst hne
        rw [loadBelow_leaf hfound hactive htags hkeys] at hload
        cases hload
      · rcases hedges : loadEdges (s.loadBelow (found :: active))
          ((Tree.bare name).addEdges (keys.map Tree.bare)).edges with ⟨⟨edges, reason⟩, below⟩
        rw [loadBelow_expanded hfound hactive htags hkeys hne hedges] at hload
        obtain ⟨⟨key, child⟩, hedge, hchild⟩ :=
          exists_edge_of_failure (by rw [hedges]; exact hload)
        obtain ⟨rfl, hkey⟩ := mem_edges_bare.mp hedge
        have hrefers : s.Refers found key := by rwa [refers_iff_mem_references htags, hkeys]
        obtain ⟨path, hpath⟩ := hrefers.get?
        obtain ⟨f, hreach, hbroken⟩ := ih (.bare key) (Registry.resolve?_of_get? hpath) rfl hchild
        exact ⟨f, .head ⟨key, hrefers, hpath⟩ hreach, hbroken⟩

/-- The two components of `pair`, but the second is no text. -/
def torn : Sources where
  project :=
    { files :=
        { medium := .memory
          entries := [(.root, .directory),
            (Path.root.child "App.vue" (by decide), .file (.text "App box x")),
            (Path.root.child "Box.vue" (by decide), .file (.binary [0xff]))]
          distinct := by decide }
      base := .root }
  registry := pair.registry
  reader := pair.reader

theorem refersTo_torn_box : torn.RefersTo "App.vue" "Box.vue" := by
  have htags : torn.tags "App.vue" = .ok ["App", "box", "x"] := tags_pair_app
  refine ⟨"Box", ⟨_, htags, "box", by simp, by decide +kernel, "Box.vue", by decide +kernel⟩, ?_⟩
  decide

theorem unreadable_torn_box : torn.Unreadable "Box.vue" := by
  rintro source ⟨path, hlocate, hread⟩
  obtain rfl : Path.root.child "Box.vue" (by decide) = path := Except.ok.inj hlocate
  cases hread

end Sources

/-- **Loading fails exactly at broken files.** It fails if and only if a file that is unreadable or
malformed can be reached from the file of the node, and the failure begins by naming one of these
and saying whether reading or parsing it failed. -/
theorem load_fails_iff (s : Sources) {name file : String}
    (hfile : s.registry.resolve? name = some file) :
    ((∃ failure, (s.load (.bare name)).value.failure = some failure) ↔
      ∃ f, Relation.ReflTransGen s.RefersTo file f ∧ (s.Unreadable f ∨ s.Malformed f)) ∧
    ∀ failure, (s.load (.bare name)).value.failure = some failure →
      ∃ f, Relation.ReflTransGen s.RefersTo file f ∧
        (s.Unreadable f ∧ failure.chain.head? = some ("failed to read " ++ f) ∨
          s.Malformed f ∧ failure.chain.head? = some ("failed to parse " ++ f)) := by
  have hnames : ∀ failure, (s.load (.bare name)).value.failure = some failure →
      ∃ f, Relation.ReflTransGen s.RefersTo file f ∧ s.FailsAt f failure := by
    intro failure hload
    obtain ⟨f, hreach, htags⟩ := Sources.exists_file_of_failure hfile hload
    exact ⟨f, hreach, Sources.failsAt_of_tags htags⟩
  refine ⟨⟨?_, ?_⟩, fun failure hload => ?_⟩
  · rintro ⟨failure, hload⟩
    obtain ⟨f, hreach, hfails⟩ := hnames failure hload
    exact ⟨f, hreach, hfails.imp And.left And.left⟩
  · rintro ⟨f, hreach, hbroken⟩
    cases hload : (s.load (.bare name)).value.failure with
    | some failure => exact ⟨failure, rfl⟩
    | none =>
      obtain ⟨tags, htags⟩ := Sources.exists_tags_of_load hfile hload hreach
      have hsound := Sources.sound_of_tags htags
      exact absurd hbroken (not_or.mpr ⟨hsound.not_unreadable, hsound.not_malformed⟩)
  · obtain ⟨f, hreach, hfails⟩ := hnames failure hload
    refine ⟨f, hreach, hfails.imp ?_ ?_⟩
    · exact fun h => ⟨h.1, Failure.head?_chain h.2⟩
    · exact fun h => ⟨h.1, Failure.head?_chain h.2⟩

theorem load_fails_iff_torn :
    Sources.torn.registry.resolve? "App" = some "App.vue" ∧
      (Sources.torn.RefersTo "App.vue" "Box.vue" ∧ Sources.torn.Unreadable "Box.vue") ∧
      ∃ failure, (Sources.torn.load (.bare "App")).value.failure = some failure := by
  have hfile : Sources.torn.registry.resolve? "App" = some "App.vue" := by decide
  exact ⟨hfile, ⟨Sources.refersTo_torn_box, Sources.unreadable_torn_box⟩,
    (load_fails_iff Sources.torn hfile).1.mpr ⟨"Box.vue", .single Sources.refersTo_torn_box,
      .inl Sources.unreadable_torn_box⟩⟩

end ComponentGraph
