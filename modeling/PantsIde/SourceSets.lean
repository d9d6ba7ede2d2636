import PantsIde.Closure

/-! # The source sets of the configured project

Read on the result of `configure_jvm`, the invariant of its walks says which source sets the
targets give: every directory an analyzed target declares is the directory string of a source
set, every source set with a `path` was built for such a directory
(`configureJvm_sources_declared`), and no two of them share a directory string
(`configureJvm_dirStrings_nodup`). Directory strings are compared as strings, though: one
directory can be spelled two ways, and then two source sets own it
(`nestedBases_configureJvm`).

`configureJvm_testMarked` says how tests are marked: a source set carries the `is_test` with
which a target of the expansion registers its directory, and `SourceSet.TEST_BASES` gains
exactly the bases of the test source sets. The first target analyzed decides, so a test
target's directory can end up a non-test source set. -/

namespace PantsIde
open PosixPath

variable {τ β : Type}

/-! ## Pointwise images -/

section Forall₂
variable {α γ δ : Type} {R : α → γ → Prop}

theorem forall₂_exists_of_mem_left : ∀ {l : List α} {l' : List γ}, List.Forall₂ R l l' →
    ∀ a ∈ l, ∃ b ∈ l', R a b
  | _, _, .nil => by simp
  | _, _, .cons hab h => by
    simpa [hab] using fun a ha => .inr (forall₂_exists_of_mem_left h a ha)

theorem forall₂_exists_of_mem_right : ∀ {l : List α} {l' : List γ}, List.Forall₂ R l l' →
    ∀ b ∈ l', ∃ a ∈ l, R a b
  | _, _, .nil => by simp
  | _, _, .cons hab h => by
    simpa [hab] using fun b hb => .inr (forall₂_exists_of_mem_right h b hb)

theorem forall₂_map_eq {f : α → δ} {f' : γ → δ} (hf : ∀ a b, R a b → f a = f' b) :
    ∀ {l : List α} {l' : List γ}, List.Forall₂ R l l' → l.map f = l'.map f'
  | _, _, .nil => rfl
  | _, _, .cons hab h => by rw [List.map_cons, List.map_cons, hf _ _ hab, forall₂_map_eq hf h]

end Forall₂

theorem SourceSet.key_of_addExcludes {o : IterOrder (List Char)} {env : Env} {rootDir : List Char}
    {targeted unexcludable : List (List Char)} {ss ss' : SourceSet}
    (h : ss.addExcludes o env rootDir targeted unexcludable = some ss') :
    ss'.sourceBase = ss.sourceBase ∧ ss'.path = ss.path := by
  obtain ⟨_, -, rfl⟩ := SourceSet.addExcludes_eq_some h
  exact ⟨rfl, rfl⟩

/-! ## A run with nested bases

A target with base `a` and source `b/X.java`, and a target with base `a/b` and source `Y.java`,
declared in one BUILD file, in a project rooted at `/r`. -/

/-- The two targets, `0` and `1`. -/
def nestedBasesGraph : BuildGraph (Fin 2) Unit where
  get i := ⟨(), if i = 0 then "a".toList else "a/b".toList,
    [if i = 0 then "b/X.java".toList else "Y.java".toList], false, [], [], [], [], true, false,
    false, false, false, false⟩
  addresses _ := [0, 1]
  ancestors _ := []
  siblings _ := []
  descendants _ := []

/-- The disk: `/r/a/b/c` and `/r/a/d`. -/
def nestedBasesEnv : Env :=
  ⟨⟨.dir [("r".toList, .dir [("a".toList, .dir [("b".toList, .dir [("c".toList, .dir [])]),
    ("d".toList, .dir [])])])], by decide⟩, "/".toList, "/r".toList⟩

/-- The project over both targets, transitive. -/
def nestedBasesProject : Project (Fin 2) := .new false false "/r".toList [0, 1] true

theorem nestedBases_configureJvm_isSome : (nestedBasesProject.configureJvm dedupOrders
    nestedBasesEnv nestedBasesGraph [] [] []).isSome := by
  decide

/-! ## Which source sets the targets give -/

namespace Project
open JvmState
variable [DecidableEq τ] [Fintype τ] {o : SetOrders τ} {env : Env} {g : BuildGraph τ β}
  {p : Project τ} {testBases extraSourcePaths extraTestPaths : List (List Char)}
  {res : Project τ × List τ × List (List Char)}

/-- The source sets of the configured project with a `path` are the walks' source sets with
their excludes. -/
theorem configureJvm_sources_filter (h : p.configureJvm o env g testBases extraSourcePaths
      extraTestPaths = some res) :
    ∃ unexcludable, List.Forall₂ (fun ss ss' => ss.addExcludes o.paths env p.rootDir
      (p.analyze o g (.init p testBases)).targeted unexcludable = some ss')
      (p.analyze o g (.init p testBases)).project.sources
      (res.1.sources.filter fun ss => ss.path.isSome) := by
  obtain ⟨unexcludable, sources, -, hfa, rfl⟩ := configureJvm_eq_some h
  refine ⟨unexcludable, ?_⟩
  have hsome : ∀ ss' ∈ sources, ss'.path.isSome := fun ss' hss' => by
    obtain ⟨ss, -, hex⟩ := forall₂_exists_of_mem_right hfa ss' hss'
    obtain ⟨path, hpath, rfl⟩ := SourceSet.addExcludes_eq_some hex
    simp [hpath]
  rw [List.filter_append, List.filter_eq_self.2 (by simpa using hsome),
    List.filter_eq_nil_iff.2 fun ss hss => by simp [(mem_extraSourceSets hss).1],
    List.append_nil]
  exact hfa

theorem configureJvm_sources_declared (hp : p.sources = [])
    (h : p.configureJvm o env g testBases extraSourcePaths extraTestPaths = some res) :
    (∀ t ∈ (p.analyze o g (.init p testBases)).analyzed, ∀ base path, DeclaresDir g t base path →
      ∃ ss ∈ res.1.sources, ss.dirString p.rootDir = some (join (join p.rootDir base) path)) ∧
    (∀ ss ∈ res.1.sources, ss.path.isSome → ∃ t ∈ (p.analyze o g (.init p testBases)).analyzed,
      ∃ path, ss.path = some path ∧ DeclaresDir g t ss.sourceBase path) := by
  obtain ⟨hown, hcov⟩ := analyze_init_owned hp o g testBases
  obtain ⟨unexcludable, hfa⟩ := configureJvm_sources_filter h
  refine ⟨fun t ht base path hd => ?_, fun ss' hss' hsome => ?_⟩
  · obtain ⟨ss, hss, hdir⟩ := (hown.targeted _).1 (hcov t ht base path hd)
    obtain ⟨ss', hss', hex⟩ := forall₂_exists_of_mem_left hfa ss hss
    obtain ⟨hb, hpath⟩ := SourceSet.key_of_addExcludes hex
    exact ⟨ss', (List.mem_filter.1 hss').1, by rwa [SourceSet.dirString, hb, hpath]⟩
  · obtain ⟨ss, hss, hex⟩ := forall₂_exists_of_mem_right hfa ss' (List.mem_filter.2 ⟨hss', hsome⟩)
    obtain ⟨hb, hpath⟩ := SourceSet.key_of_addExcludes hex
    rw [hb, hpath]
    exact (hown.sources ss hss).2

theorem nestedBases_sources_declared : ∃ res, nestedBasesProject.configureJvm dedupOrders
      nestedBasesEnv nestedBasesGraph [] [] [] = some res ∧
    (∀ t ∈ (nestedBasesProject.analyze dedupOrders nestedBasesGraph (.init nestedBasesProject
        [])).analyzed, ∀ base path, DeclaresDir nestedBasesGraph t base path →
      ∃ ss ∈ res.1.sources, ss.dirString "/r".toList = some (join (join "/r".toList base) path)) ∧
    (∀ ss ∈ res.1.sources, ss.path.isSome → ∃ t ∈ (nestedBasesProject.analyze dedupOrders
        nestedBasesGraph (.init nestedBasesProject [])).analyzed,
      ∃ path, ss.path = some path ∧ DeclaresDir nestedBasesGraph t ss.sourceBase path) := by
  obtain ⟨res, h⟩ := Option.isSome_iff_exists.1 nestedBases_configureJvm_isSome
  exact ⟨res, h, configureJvm_sources_declared rfl h⟩

/-- The source sets the targets give have pairwise distinct directory strings
`os.path.join(root_dir, source_base, path)`, hence pairwise distinct `(source_base, path)`
keys. -/
theorem configureJvm_dirStrings_nodup (hp : p.sources = [])
    (h : p.configureJvm o env g testBases extraSourcePaths extraTestPaths = some res) :
    ((res.1.sources.filter fun ss => ss.path.isSome).map (SourceSet.dirString p.rootDir)).Nodup ∧
    ((res.1.sources.filter fun ss => ss.path.isSome).map fun ss => (ss.sourceBase, ss.path)).Nodup := by
  have hown := (analyze_init_owned hp o g testBases).1
  obtain ⟨unexcludable, hfa⟩ := configureJvm_sources_filter h
  have hdir : ((res.1.sources.filter fun ss => ss.path.isSome).map
      (SourceSet.dirString p.rootDir)).Nodup := by
    rw [← forall₂_map_eq (fun ss ss' hex => ?_) hfa]
    · exact hown.nodup
    · obtain ⟨hb, hpath⟩ := SourceSet.key_of_addExcludes hex
      simp only [SourceSet.dirString, hb, hpath]
  refine ⟨hdir, List.Nodup.of_map (fun key => key.2.map (join (join p.rootDir key.1))) ?_⟩
  rwa [List.map_map]

theorem nestedBases_dirStrings_nodup : ∃ res, nestedBasesProject.configureJvm dedupOrders
      nestedBasesEnv nestedBasesGraph [] [] [] = some res ∧
    ((res.1.sources.filter fun ss => ss.path.isSome).map
      (SourceSet.dirString "/r".toList)).Nodup ∧
    ((res.1.sources.filter fun ss => ss.path.isSome).map fun ss => (ss.sourceBase, ss.path)).Nodup := by
  obtain ⟨res, h⟩ := Option.isSome_iff_exists.1 nestedBases_configureJvm_isSome
  have hnodup := configureJvm_dirStrings_nodup rfl h
  exact ⟨res, h, hnodup⟩

end Project

/-- The two targets give two source sets, `(a, b)` spelled `/r/a/b` and `(a/b, '')` spelled
`/r/a/b/`, that are one directory once normalized. -/
theorem nestedBases_configureJvm : (nestedBasesProject.configureJvm dedupOrders nestedBasesEnv
      nestedBasesGraph [] [] []).map (fun res => res.1.sources.map fun ss =>
        (ss.sourceBase, ss.path, ss.dirString "/r".toList, (ss.dirString "/r".toList).map normpath)) =
    some [("a".toList, some "b".toList, some "/r/a/b".toList, some "/r/a/b".toList),
      ("a/b".toList, some [], some "/r/a/b/".toList, some "/r/a/b".toList)] := by
  decide

/-! ## Test source sets and `SourceSet.TEST_BASES` -/

/-- Target `t` declares a file in directory `path` below `base`, and `configure_target`
registers that directory with `is_test`: a directory of its sources with the target's
`is_test`, a directory of its resources with `False`. -/
def DeclaresDirAs (g : BuildGraph τ β) (t : τ) (base path : List Char) (isTest : Bool) : Prop :=
  (base = (g.get t).targetBase ∧ (∃ s ∈ (g.get t).sources, path = dirname s) ∧
    isTest = (g.get t).isTest) ∨
  (isTest = false ∧ (g.get t).hasResources = true ∧
    ∃ grp ∈ (g.get t).resources, base = grp.targetBase ∧ ∃ r ∈ grp.sources, path = dirname r)

namespace JvmState

/-- The walks' state marks tests as the targets declare them: every source set was built with
the `is_test` an analyzed target registers its directory with, and `SourceSet.TEST_BASES` holds
what it held before, `testBases`, and the source bases of the test source sets. -/
structure TestMarked (g : BuildGraph τ β) (testBases : List (List Char)) (st : JvmState τ) :
    Prop where
  sources : ∀ ss ∈ st.project.sources, ∃ t ∈ st.analyzed, ∃ path, ss.path = some path ∧
    DeclaresDirAs g t ss.sourceBase path ss.isTest
  testBases : ∀ b, b ∈ st.testBases ↔
    b ∈ testBases ∨ ∃ ss ∈ st.project.sources, ss.isTest = true ∧ ss.sourceBase = b

variable {g : BuildGraph τ β} {tb : List (List Char)} {st : JvmState τ} {base path : List Char}
  {isTest : Bool} {o : IterOrder (List Char)} {sources : List (List Char)}
  {groups : List Resources} {basedir : List Char} {t : τ}

theorem TestMarked.registerPath (h : st.TestMarked g tb)
    (hd : ∃ t ∈ st.analyzed, DeclaresDirAs g t base path isTest) :
    (st.registerPath base isTest path).TestMarked g tb := by
  simp only [JvmState.registerPath]
  split
  · exact h
  · refine ⟨?_, fun b => ?_⟩
    · simp only [SourceSet.new, List.mem_append, List.mem_singleton]
      rintro ss (hss | rfl)
      · exact h.sources ss hss
      · exact hd.imp fun t ⟨ht, hdt⟩ => ⟨ht, path, rfl, hdt⟩
    · have hb := h.testBases b
      cases isTest
      · simpa [SourceSet.new, or_and_right, exists_or] using hb
      · simp only [SourceSet.new, if_true, mem_setAdd, hb, List.mem_append, List.mem_singleton,
          or_and_right, exists_or, exists_eq_left, true_and, or_assoc]
        exact or_congr_right (or_congr_right eq_comm)

theorem TestMarked.foldl_registerPath {L : List (List Char)} (h : st.TestMarked g tb)
    (hd : ∀ path ∈ L, ∃ t ∈ st.analyzed, DeclaresDirAs g t base path isTest) :
    (L.foldl (JvmState.registerPath base isTest) st).TestMarked g tb := by
  induction L generalizing st with
  | nil => exact h
  | cons path L ih =>
    exact ih (h.registerPath (hd path (.head _)))
      (by simpa using fun q hq => hd q (.tail _ hq))

theorem TestMarked.configureSourceSets (h : st.TestMarked g tb)
    (hd : ∀ s ∈ sources, ∃ t ∈ st.analyzed, DeclaresDirAs g t base (dirname s) isTest) :
    (configureSourceSets o base sources isTest st).TestMarked g tb :=
  h.foldl_registerPath fun path hp => by
    obtain ⟨s, hs, rfl⟩ := List.mem_map.1 ((o.mem_arrange _ _).1 hp)
    exact hd s hs

theorem TestMarked.configureResources (h : st.TestMarked g tb)
    (hd : ∀ grp ∈ groups, ∀ r ∈ grp.sources, ∃ t ∈ st.analyzed,
      DeclaresDirAs g t grp.targetBase (dirname r) false) :
    (configureResources o groups st).TestMarked g tb := by
  unfold JvmState.configureResources
  generalize o.arrange _ = K
  induction K generalizing st with
  | nil => exact h
  | cons b K ih =>
    refine ih (TestMarked.configureSourceSets ⟨h.1, h.2⟩ fun r hr => ?_) (by simpa using hd)
    obtain ⟨grp, hg, hr⟩ := List.mem_flatMap.1 hr
    obtain ⟨hg, hb⟩ := List.mem_filter.1 hg
    exact of_decide_eq_true hb ▸ hd grp hg r hr

theorem TestMarked.registerTarget (h : st.TestMarked g tb) :
    (JvmState.registerTarget o g t st).TestMarked g tb := by
  have h1 : TestMarked g tb { st with analyzed := st.analyzed ++ [t], project := { st.project with
      hasScala := !st.project.skipScala && (st.project.hasScala || isScala (g.get t)) } } :=
    ⟨fun ss hss => (h.sources ss hss).imp fun u ⟨hu, rest⟩ => ⟨List.mem_append_left _ hu, rest⟩,
      h.testBases⟩
  have ht : t ∈ st.analyzed ++ [t] := List.mem_append_right _ (List.mem_singleton_self t)
  have hres : (g.get t).hasResources = true → ∀ grp ∈ (g.get t).resources, ∀ r ∈ grp.sources,
      ∃ u ∈ st.analyzed ++ [t], DeclaresDirAs g u grp.targetBase (dirname r) false :=
    fun hr grp hg r hrs => ⟨t, ht, .inr ⟨rfl, hr, grp, hg, rfl, r, hrs, rfl⟩⟩
  simp only [JvmState.registerTarget]
  split_ifs with hsrc hr hr
  · exact h1.configureResources (hres hr)
  · exact h1
  · have h2 := h1.configureResources (o := o) (hres hr)
    exact TestMarked.configureSourceSets ⟨h2.1, h2.2⟩
      fun s hs => ⟨t, by simp, .inl ⟨rfl, ⟨s, hs, rfl⟩, rfl⟩⟩
  · exact TestMarked.configureSourceSets ⟨h1.1, h1.2⟩
      fun s hs => ⟨t, ht, .inl ⟨rfl, ⟨s, hs, rfl⟩, rfl⟩⟩

theorem TestMarked.configureTarget [DecidableEq τ] {o : SetOrders τ} (h : st.TestMarked g tb) :
    (JvmState.configureTarget o g t st).1.TestMarked g tb := by
  by_cases ht : t ∈ st.analyzed
  · rwa [configureTarget_of_mem ht]
  · rw [configureTarget_of_not_mem ht]; exact h.registerTarget

theorem TestMarked.init {p : Project τ} (hp : p.sources = []) :
    (JvmState.init p tb).TestMarked g tb :=
  ⟨by simp [JvmState.init, hp], by simp [JvmState.init, hp]⟩

end JvmState

namespace Project
open JvmState
variable [DecidableEq τ] [Fintype τ] {o : SetOrders τ} {env : Env} {g : BuildGraph τ β}
  {p : Project τ} {st : JvmState τ} {testBases extraSourcePaths extraTestPaths : List (List Char)}
  {res : Project τ × List τ × List (List Char)}

theorem analyze_testMarked {tb : List (List Char)} (h : st.TestMarked g tb) :
    (p.analyze o g st).TestMarked g tb := by
  unfold analyze
  induction p.targets generalizing st with
  | nil => exact h
  | cons t ts ih =>
    exact ih (BuildGraph.walkFrom_preserves g _ _ (JvmState.TestMarked g tb)
      (fun _ _ _ hs => hs.configureTarget) [t] ∅ h)

/-- `extend` of the extra roots: the extra source roots, then the extra test roots, and
`SourceSet.TEST_BASES` with the extra test roots. -/
theorem extraSourceSets_eq (buildroot : List Char) (tb : List (List Char)) :
    extraSourceSets buildroot extraSourcePaths extraTestPaths tb =
      (extraSourcePaths.map (fun root => ⟨buildroot, root, none, false, []⟩) ++
        extraTestPaths.map (fun root => ⟨buildroot, root, none, true, []⟩),
      setUpdate extraTestPaths tb) := by
  simp [extraSourceSets, extendRoots_eq]

/-- The source sets of `configure_jvm` are marked as the expansion declares them: one built for
a directory carries the `is_test` with which a target of the expansion registers it (so it is a
test source set only if a test target has sources there, never for resources), and
`SourceSet.TEST_BASES` ends holding exactly what it held and the source bases of the test source
sets, the extra test roots among them. -/
theorem configureJvm_testMarked (hp : p.sources = [])
    (h : p.configureJvm o env g testBases extraSourcePaths extraTestPaths = some res) :
    (∀ ss ∈ res.1.sources, ∀ path, ss.path = some path →
      ∃ t, Expanded g p t ∧ DeclaresDirAs g t ss.sourceBase path ss.isTest) ∧
    ∀ b, b ∈ res.2.2 ↔ b ∈ testBases ∨ ∃ ss ∈ res.1.sources, ss.isTest = true ∧ ss.sourceBase = b := by
  have hm : (p.analyze o g (.init p testBases)).TestMarked g testBases :=
    analyze_testMarked (.init hp)
  obtain ⟨_, sources, -, hfa, rfl⟩ := configureJvm_eq_some h
  -- the excludes loop keeps each source set's base, path and mark
  have hkeep : ∀ ss ∈ sources, ∃ ss₀ ∈ (p.analyze o g (.init p testBases)).project.sources,
      ss.sourceBase = ss₀.sourceBase ∧ ss.path = ss₀.path ∧ ss.isTest = ss₀.isTest := by
    intro ss hss
    obtain ⟨ss₀, hss₀, hex⟩ := forall₂_exists_of_mem_right hfa ss hss
    obtain ⟨_, -, rfl⟩ := SourceSet.addExcludes_eq_some hex
    exact ⟨ss₀, hss₀, rfl, rfl, rfl⟩
  have hback : ∀ ss₀ ∈ (p.analyze o g (.init p testBases)).project.sources, ∃ ss ∈ sources,
      ss.sourceBase = ss₀.sourceBase ∧ ss.isTest = ss₀.isTest := by
    intro ss₀ hss₀
    obtain ⟨ss, hss, hex⟩ := forall₂_exists_of_mem_left hfa ss₀ hss₀
    obtain ⟨_, -, rfl⟩ := SourceSet.addExcludes_eq_some hex
    exact ⟨_, hss, rfl, rfl⟩
  simp only [extraSourceSets_eq]
  refine ⟨fun ss hss path hpath => ?_, fun b => ?_⟩
  · rcases List.mem_append.1 hss with hss | hss
    · obtain ⟨ss₀, hss₀, hb, hp', ht⟩ := hkeep ss hss
      obtain ⟨t, ht₀, path₀, hpath₀, hd⟩ := hm.sources ss₀ hss₀
      rw [hp', hpath₀, Option.some.injEq] at hpath
      subst hpath
      exact ⟨t, (analyze_init_iff_expanded o testBases t).1 ht₀, hb ▸ ht ▸ hd⟩
    · simp only [List.mem_append, List.mem_map] at hss
      rcases hss with ⟨_, -, rfl⟩ | ⟨_, -, rfl⟩ <;> cases hpath
  · simp only [mem_setUpdate, hm.testBases, List.mem_append, List.mem_map]
    constructor
    · rintro ((hb | ⟨ss₀, hss₀, ht, rfl⟩) | hb)
      · exact .inl hb
      · obtain ⟨ss, hss, hb, hts⟩ := hback ss₀ hss₀
        exact .inr ⟨ss, .inl hss, hts.trans ht, hb⟩
      · exact .inr ⟨_, .inr (.inr ⟨b, hb, rfl⟩), rfl, rfl⟩
    · rintro (hb | ⟨ss, (hss | ⟨_, -, rfl⟩ | ⟨b', hb', rfl⟩), ht, rfl⟩)
      · exact .inl (.inl hb)
      · obtain ⟨ss₀, hss₀, hb, -, hts⟩ := hkeep ss hss
        exact .inl (.inr ⟨ss₀, hss₀, hts ▸ ht, hb.symm⟩)
      · cases ht
      · exact .inr hb'

end Project

/-! ## A test target sharing a directory

A non-test target `0` and a test target `1` with sources in one directory `tests/b`, declared in
one BUILD file, in a transitive project rooted at `/r` that names only `0`, with the extra test
root `it`. -/

/-- The targets: `0` declares `b/Helper.java`, the test target `1` declares `b/XTest.java`,
both below the base `tests`. -/
def sharedDirGraph : BuildGraph (Fin 2) Unit where
  get i := ⟨(), "tests".toList, [if i = 0 then "b/Helper.java".toList else "b/XTest.java".toList],
    false, [], [], [], [], true, decide (i = 1), false, false, false, false⟩
  addresses _ := [0, 1]
  ancestors _ := []
  siblings _ := []
  descendants _ := []

/-- The disk: `/r/tests/b` and `/r/it`. -/
def sharedDirEnv : Env :=
  ⟨⟨.dir [("r".toList, .dir [("tests".toList, .dir [("b".toList, .dir [])]),
    ("it".toList, .dir [])])], by decide⟩, "/".toList, "/r".toList⟩

/-- The project over target `0`, transitive. -/
def sharedDirProject : Project (Fin 2) := .new false false "/r".toList [0] true

namespace Project

theorem sharedDir_configureJvm_testMarked : sharedDirProject.sources = [] ∧
    ∃ res, sharedDirProject.configureJvm dedupOrders sharedDirEnv sharedDirGraph [] []
      ["it".toList] = some res ∧
    (∀ ss ∈ res.1.sources, ∀ path, ss.path = some path →
      ∃ t, Expanded sharedDirGraph sharedDirProject t ∧
      DeclaresDirAs sharedDirGraph t ss.sourceBase path ss.isTest) ∧
    ∀ b, b ∈ res.2.2 ↔ b ∈ ([] : List (List Char)) ∨
      ∃ ss ∈ res.1.sources, ss.isTest = true ∧ ss.sourceBase = b := by
  obtain ⟨res, h⟩ := Option.isSome_iff_exists.1 (by decide : (sharedDirProject.configureJvm
    dedupOrders sharedDirEnv sharedDirGraph [] [] ["it".toList]).isSome)
  have hmarked := configureJvm_testMarked rfl h
  exact ⟨rfl, res, h, hmarked⟩

/-- Target `0` is analyzed first, so the directory of the test target `1` is a source set that
is not a test one, and only the extra test root is a test base. -/
example : (sharedDirProject.configureJvm dedupOrders sharedDirEnv sharedDirGraph [] []
      ["it".toList]).map (fun res => (res.1.sources.map fun ss => (ss.path, ss.isTest), res.2.2)) =
    some ([(some "b".toList, false), (none, true)], ["it".toList]) := by
  decide

end Project
end PantsIde
