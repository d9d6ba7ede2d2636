import PantsIde.IdeGen

/-! # The derived flags and the Python roots of a project

Besides its source sets, `configure_jvm` derives `has_scala`, `has_tests` and the
`resource_extensions` from the targets it analyzes, and `configure_python` registers the Python
source, test and library roots, one source set per root and per subdirectory or `.egg` entry of a
library root (`configurePython_eq`, the spec lemma of `configure_python`).

* `configureJvm_flags`: on a new project, the flags `configure_jvm` leaves are those of the
  targets of its expansion (`Project.Expanded`), so they depend neither on the order of
  `project.targets` nor on the iteration orders.
* `configureProject_project`: `configure_jvm` leaves the Python roots alone, so the project
  `configure_project` returns has the roots of the options, and flags that are those of the
  targets it returns. -/

namespace PantsIde
open PosixPath

variable {τ β : Type}

theorem setUpdate_append {α : Type} [DecidableEq α] (xs ys s : List α) :
    setUpdate (xs ++ ys) s = setUpdate ys (setUpdate xs s) :=
  List.foldl_append _ _ _ _

theorem nodup_setUpdate {α : Type} [DecidableEq α] {s : List α} (h : s.Nodup) :
    ∀ xs, (setUpdate xs s).Nodup := by
  intro xs
  induction xs generalizing s with
  | nil => exact h
  | cons x xs ih =>
    refine ih ?_
    show (if x ∈ s then s else s ++ [x]).Nodup
    split
    · exact h
    · exact h.append (List.nodup_singleton x) (List.disjoint_singleton.2 ‹_›)

/-! ## `configure_python` -/

namespace Project

/-- The entries of the library root `root` that `configure_python` registers: those that are
directories or end with `.egg`, in `os.listdir` order. -/
def pythonLibPaths (env : Env) (root : List Char) : List (List Char) :=
  ((env.fs.listdir env.cwd (join env.buildroot root)).getD []).filter fun path =>
    env.fs.isdir env.cwd (join (join env.buildroot root) path) || ".egg".toList.isSuffixOf path

theorem addLibRoot_eq (env : Env) (acc : List SourceSet × List (List Char)) (root : List Char) :
    addLibRoot env acc root =
      if (env.fs.listdir env.cwd (join env.buildroot root)).isSome then
        some (acc.1 ++ (pythonLibPaths env root).map fun path =>
          ⟨env.buildroot, root, some path, false, []⟩, acc.2)
      else none := by
  unfold addLibRoot pythonLibPaths
  cases env.fs.listdir env.cwd (join env.buildroot root) with
  | none => rfl
  | some names =>
    simp only [Option.bind_eq_bind, Option.some_bind, Option.isSome_some, if_true,
      Option.getD_some, pure, Option.some.injEq]
    induction names generalizing acc with
    | nil => simp
    | cons n names ih =>
      rw [List.foldl_cons, ih, List.filter_cons]
      split <;> simp [SourceSet.new]

theorem foldlM_addLibRoot (env : Env) (libRoots : List (List Char))
    (acc : List SourceSet × List (List Char)) :
    libRoots.foldlM (addLibRoot env) acc =
      if ∀ root ∈ libRoots, (env.fs.listdir env.cwd (join env.buildroot root)).isSome then
        some (acc.1 ++ libRoots.flatMap (fun root => (pythonLibPaths env root).map fun path =>
          ⟨env.buildroot, root, some path, false, []⟩), acc.2)
      else none := by
  induction libRoots generalizing acc with
  | nil => simp
  | cons root roots ih =>
    rw [List.foldlM_cons, addLibRoot_eq]
    by_cases h : (env.fs.listdir env.cwd (join env.buildroot root)).isSome
    · simp [h, ih]
    · simp [h]

/-- `configure_python` completes exactly when every library root can be listed; it then appends
a source set for every source root and every test root, adding the test roots to
`SourceSet.TEST_BASES`, and a library for every subdirectory and `.egg` entry of every library
root, in order. -/
theorem configurePython_eq (env : Env) (p : Project τ)
    (testBases sourceRoots testRoots libRoots : List (List Char)) :
    p.configurePython env testBases sourceRoots testRoots libRoots =
      if ∀ root ∈ libRoots, (env.fs.listdir env.cwd (join env.buildroot root)).isSome then
        some ({ p with
          pySources := p.pySources ++
            sourceRoots.map (fun root => ⟨env.buildroot, root, none, false, []⟩) ++
            testRoots.map (fun root => ⟨env.buildroot, root, none, true, []⟩),
          pyLibs := p.pyLibs ++ libRoots.flatMap fun root =>
            (pythonLibPaths env root).map fun path => ⟨env.buildroot, root, some path, false, []⟩ },
          setUpdate testRoots testBases)
      else none := by
  simp only [configurePython, extendRoots_eq, foldlM_addLibRoot]
  split <;> simp

end Project

/-! ## The derived flags of `configure_jvm` -/

namespace Project

/-- `has_scala`, `has_tests` and `resource_extensions`: what `configure_jvm` derives from the
targets it analyzes. -/
def flags (p : Project τ) : Bool × Bool × List (List Char) :=
  (p.hasScala, p.hasTests, p.resourceExtensions)

end Project

/-- The extensions `configure_target` adds for the resources groups `groups`, in the order it
adds them. -/
def resourceExtensionsIn (o : IterOrder (List Char)) (groups : List Resources) :
    List (List Char) :=
  (o.arrange (groups.map Resources.targetBase)).flatMap fun b =>
    Project.extractResourceExtensions ((groups.filter (·.targetBase = b)).flatMap Resources.sources)

theorem mem_resourceExtensionsIn {o : IterOrder (List Char)} {groups : List Resources}
    {e : List Char} :
    e ∈ resourceExtensionsIn o groups ↔ ∃ grp ∈ groups, ∃ r ∈ grp.sources, e = (splitext r).2 := by
  simp only [resourceExtensionsIn, List.mem_flatMap, o.mem_arrange, List.mem_map,
    Project.extractResourceExtensions, List.mem_filter, decide_eq_true_eq]
  constructor
  · rintro ⟨-, -, r, ⟨grp, ⟨hg, -⟩, hr⟩, rfl⟩
    exact ⟨grp, hg, r, hr, rfl⟩
  · rintro ⟨grp, hg, r, hr, rfl⟩
    exact ⟨grp.targetBase, ⟨grp, hg, rfl⟩, r, ⟨grp, ⟨hg, rfl⟩, hr⟩, rfl⟩

namespace JvmState
variable {g : BuildGraph τ β} {st : JvmState τ} {o : IterOrder (List Char)}
  {base path : List Char} {isTest : Bool} {sources : List (List Char)} {groups : List Resources}
  {t : τ}

@[simp] theorem registerPath_flags :
    (st.registerPath base isTest path).project.flags = st.project.flags := by
  simp only [registerPath]; split <;> rfl

@[simp] theorem configureSourceSets_flags :
    (configureSourceSets o base sources isTest st).project.flags = st.project.flags := by
  unfold configureSourceSets
  generalize o.arrange _ = L
  induction L generalizing st <;> simp [*]

@[simp] theorem configureSourceSets_hasScala :
    (configureSourceSets o base sources isTest st).project.hasScala = st.project.hasScala :=
  congrArg Prod.fst configureSourceSets_flags

@[simp] theorem configureSourceSets_hasTests :
    (configureSourceSets o base sources isTest st).project.hasTests = st.project.hasTests :=
  congrArg (·.2.1) configureSourceSets_flags

@[simp] theorem configureSourceSets_resourceExtensions :
    (configureSourceSets o base sources isTest st).project.resourceExtensions =
      st.project.resourceExtensions :=
  congrArg (·.2.2) configureSourceSets_flags

theorem configureResourceBase_flags (o : IterOrder (List Char)) (groups : List Resources)
    (st : JvmState τ) (base : List Char) :
    (configureResourceBase o groups st base).project.flags = (st.project.hasScala,
      st.project.hasTests, setUpdate (Project.extractResourceExtensions
        ((groups.filter (·.targetBase = base)).flatMap Resources.sources))
        st.project.resourceExtensions) := by
  simp only [configureResourceBase, configureSourceSets_flags]; rfl

theorem configureResources_flags :
    (configureResources o groups st).project.flags = (st.project.hasScala, st.project.hasTests,
      setUpdate (resourceExtensionsIn o groups) st.project.resourceExtensions) := by
  unfold configureResources resourceExtensionsIn
  generalize o.arrange _ = K
  induction K generalizing st with
  | nil => rfl
  | cons b K ih =>
    have hb := configureResourceBase_flags o groups st b
    simp only [Project.flags, Prod.mk.injEq] at hb
    rw [List.foldl_cons, ih, hb.1, hb.2.1, hb.2.2, List.flatMap_cons, setUpdate_append]

@[simp] theorem configureResources_hasScala :
    (configureResources o groups st).project.hasScala = st.project.hasScala :=
  congrArg Prod.fst configureResources_flags

@[simp] theorem configureResources_hasTests :
    (configureResources o groups st).project.hasTests = st.project.hasTests :=
  congrArg (·.2.1) configureResources_flags

@[simp] theorem configureResources_resourceExtensions :
    (configureResources o groups st).project.resourceExtensions =
      setUpdate (resourceExtensionsIn o groups) st.project.resourceExtensions :=
  congrArg (·.2.2) configureResources_flags

/-- What analyzing a target does to the flags: `has_scala` once a Scala target is analyzed
(never when Scala is skipped), `has_tests` once a test target with sources is, and the
extensions of the target's resources. -/
theorem registerTarget_flags : (registerTarget o g t st).project.flags =
    (!st.project.skipScala && (st.project.hasScala || isScala (g.get t)),
      st.project.hasTests || (!(g.get t).sources.isEmpty && (g.get t).isTest),
      if (g.get t).hasResources then
        setUpdate (resourceExtensionsIn o (g.get t).resources) st.project.resourceExtensions
      else st.project.resourceExtensions) := by
  simp only [registerTarget]
  split_ifs with hres hsrc hsrc <;>
    simp [Project.flags, hres, hsrc, List.isEmpty_eq_false.2]

/-- The flags of a state are those of the targets it has analyzed. -/
structure FlagsOf (g : BuildGraph τ β) (st : JvmState τ) : Prop where
  hasScala : st.project.hasScala = true ↔
    st.project.skipScala = false ∧ ∃ t ∈ st.analyzed, isScala (g.get t) = true
  hasTests : st.project.hasTests = true ↔
    ∃ t ∈ st.analyzed, (g.get t).sources ≠ [] ∧ (g.get t).isTest = true
  resourceExtensions : ∀ e, e ∈ st.project.resourceExtensions ↔ ∃ t ∈ st.analyzed,
    (g.get t).hasResources = true ∧
      ∃ grp ∈ (g.get t).resources, ∃ r ∈ grp.sources, e = (splitext r).2
  nodup : st.project.resourceExtensions.Nodup

theorem FlagsOf.registerTarget (h : st.FlagsOf g) :
    (JvmState.registerTarget o g t st).FlagsOf g := by
  have hf : (JvmState.registerTarget o g t st).project.flags = _ := registerTarget_flags
  have hs : (JvmState.registerTarget o g t st).project.settings = _ := registerTarget_settings
  simp only [Project.flags, Project.settings, Prod.mk.injEq] at hf hs
  obtain ⟨h1, h2, h3⟩ := hf
  refine ⟨?_, ?_, fun e => ?_, ?_⟩
  · rw [h1, hs.2.2.2.2, registerTarget_analyzed]
    cases hk : st.project.skipScala <;> simp [h.hasScala, hk, or_and_right, exists_or]
  · rw [h2, registerTarget_analyzed]
    simp [h.hasTests, or_and_right, exists_or]
  · rw [h3, registerTarget_analyzed]
    split <;> simp [h.resourceExtensions, mem_resourceExtensionsIn, or_and_right, exists_or, *]
  · rw [h3]; split
    exacts [nodup_setUpdate h.nodup _, h.nodup]

theorem FlagsOf.configureTarget [DecidableEq τ] {o : SetOrders τ} (h : st.FlagsOf g) :
    (JvmState.configureTarget o g t st).1.FlagsOf g := by
  by_cases ht : t ∈ st.analyzed
  · rwa [configureTarget_of_mem ht]
  · rw [configureTarget_of_not_mem ht]; exact h.registerTarget

/-- A new project has none of the flags. -/
theorem FlagsOf.init {p : Project τ} {testBases : List (List Char)}
    (hp : p.flags = (false, false, [])) : (JvmState.init p testBases).FlagsOf g := by
  simp only [Project.flags, Prod.mk.injEq] at hp
  constructor <;> simp [JvmState.init, hp]

/-- When every analyzed target has sources, and none is a Scala target while Scala is skipped,
`has_scala` and `has_tests` say whether an analyzed target is a Scala or a test target. -/
theorem FlagsOf.analyzed (h : st.FlagsOf g)
    (hsrc : ∀ t ∈ st.analyzed, (g.get t).sources ≠ [] ∧
      (st.project.skipScala = true → isScala (g.get t) = false)) :
    (st.project.hasScala = true ↔ ∃ t ∈ st.analyzed, isScala (g.get t) = true) ∧
    (st.project.hasTests = true ↔ ∃ t ∈ st.analyzed, (g.get t).isTest = true) := by
  rw [h.hasScala, h.hasTests]
  refine ⟨⟨fun ⟨_, t, ht, hsc⟩ => ⟨t, ht, hsc⟩, fun ⟨t, ht, hsc⟩ => ⟨?_, t, ht, hsc⟩⟩,
    ⟨fun ⟨t, ht, _, hte⟩ => ⟨t, ht, hte⟩, fun ⟨t, ht, hte⟩ => ⟨t, ht, (hsrc t ht).1, hte⟩⟩⟩
  cases hk : st.project.skipScala
  · rfl
  · rw [(hsrc t ht).2 hk] at hsc; exact absurd hsc Bool.false_ne_true

end JvmState

theorem Target.hasSources_nil {tgt : Target τ β} :
    tgt.hasSources [] = true ↔ tgt.sources ≠ [] := by
  simp [Target.hasSources, List.isSuffixOf, List.eq_nil_iff_forall_not_mem]

namespace Project
variable [DecidableEq τ] {o : SetOrders τ} {g : BuildGraph τ β} {p : Project τ}
  {st : JvmState τ} {t : τ}

/-- A target of the expansion has sources, and is no Scala target when Scala is skipped. -/
theorem Expanded.sources_ne_nil (h : Expanded g p t) :
    (g.get t).sources ≠ [] ∧ (p.skipScala = true → isScala (g.get t) = false) := by
  have ht : p.sourceTarget g t = true := by cases h <;> assumption
  simp only [sourceTarget, Bool.and_eq_true, Bool.not_eq_true', Bool.and_eq_false_imp,
    Target.hasSources_nil] at ht
  exact ⟨ht.1.2, ht.2.2⟩

variable [Fintype τ]

theorem analyze_flagsOf (h : st.FlagsOf g) : (p.analyze o g st).FlagsOf g := by
  unfold analyze
  induction p.targets generalizing st with
  | nil => exact h
  | cons t ts ih =>
    exact ih (BuildGraph.walkFrom_preserves g _ _ (JvmState.FlagsOf g)
      (fun _ _ _ hs => hs.configureTarget) [t] ∅ h)

/-- The walks of `configure_jvm` analyze only targets with sources, and no Scala target when
Scala is skipped. -/
theorem analyze_init_sources (o : SetOrders τ) (testBases : List (List Char)) :
    ∀ t ∈ (p.analyze o g (.init p testBases)).analyzed, (g.get t).sources ≠ [] ∧
      ((p.analyze o g (.init p testBases)).project.skipScala = true →
        isScala (g.get t) = false) := by
  intro t ht
  have hs : (p.analyze o g (.init p testBases)).project.settings = p.settings := analyze_settings
  simp only [settings, Prod.mk.injEq] at hs
  rw [hs.2.2.2.2]
  exact ((analyze_init_iff_expanded o testBases t).1 ht).sources_ne_nil

/-- On a new project, `configure_jvm` sets `has_scala` exactly when a target of the expansion
is a Scala target, `has_tests` exactly when one is a test target, and collects without
repetition the extensions of the resources of the targets of the expansion. -/
theorem configureJvm_flags {env : Env}
    {testBases extraSourcePaths extraTestPaths : List (List Char)}
    {res : Project τ × List τ × List (List Char)} (hnew : p.flags = (false, false, []))
    (h : p.configureJvm o env g testBases extraSourcePaths extraTestPaths = some res) :
    (res.1.hasScala = true ↔ ∃ t, Expanded g p t ∧ isScala (g.get t) = true) ∧
    (res.1.hasTests = true ↔ ∃ t, Expanded g p t ∧ (g.get t).isTest = true) ∧
    (∀ e, e ∈ res.1.resourceExtensions ↔ ∃ t, Expanded g p t ∧ (g.get t).hasResources = true ∧
      ∃ grp ∈ (g.get t).resources, ∃ r ∈ grp.sources, e = (splitext r).2) ∧
    res.1.resourceExtensions.Nodup := by
  obtain ⟨-, -, -, -, rfl⟩ := configureJvm_eq_some h
  have hf : (p.analyze o g (.init p testBases)).FlagsOf g := analyze_flagsOf (.init hnew)
  have hflags := hf.analyzed (analyze_init_sources o testBases)
  simp only [← analyze_init_iff_expanded o testBases]
  exact ⟨hflags.1, hflags.2, hf.resourceExtensions, hf.nodup⟩

theorem sibling_configureJvm_flags : siblingProject.flags = (false, false, []) ∧
    ∃ res, siblingProject.configureJvm dedupOrders siblingEnv siblingGraph [] [] [] = some res ∧
    (res.1.hasScala = true ↔
      ∃ t, Expanded siblingGraph siblingProject t ∧ isScala (siblingGraph.get t) = true) ∧
    (res.1.hasTests = true ↔
      ∃ t, Expanded siblingGraph siblingProject t ∧ (siblingGraph.get t).isTest = true) ∧
    (∀ e, e ∈ res.1.resourceExtensions ↔ ∃ t, Expanded siblingGraph siblingProject t ∧
      (siblingGraph.get t).hasResources = true ∧
      ∃ grp ∈ (siblingGraph.get t).resources, ∃ r ∈ grp.sources, e = (splitext r).2) ∧
    res.1.resourceExtensions.Nodup := by
  obtain ⟨res, h⟩ := Option.isSome_iff_exists.1 (by decide : (siblingProject.configureJvm
    dedupOrders siblingEnv siblingGraph [] [] []).isSome)
  exact ⟨rfl, res, h, configureJvm_flags rfl h⟩

end Project

/-! ## `configure_jvm` leaves the Python roots -/

namespace Project

/-- `py_sources` and `py_libs`: only `configure_python` writes them. -/
def python (p : Project τ) : List SourceSet × List SourceSet := (p.pySources, p.pyLibs)

end Project

namespace JvmState
variable {g : BuildGraph τ β} {st : JvmState τ} {o : IterOrder (List Char)}
  {base path : List Char} {isTest : Bool} {sources : List (List Char)} {groups : List Resources}
  {t : τ}

@[simp] theorem registerPath_python :
    (st.registerPath base isTest path).project.python = st.project.python := by
  simp only [registerPath]; split <;> rfl

@[simp] theorem configureSourceSets_python :
    (configureSourceSets o base sources isTest st).project.python = st.project.python := by
  unfold configureSourceSets
  generalize o.arrange _ = L
  induction L generalizing st <;> simp [*]

@[simp] theorem configureResources_python :
    (configureResources o groups st).project.python = st.project.python := by
  unfold configureResources
  generalize o.arrange _ = K
  induction K generalizing st with
  | nil => rfl
  | cons b K ih => exact ih.trans configureSourceSets_python

theorem registerTarget_python : (registerTarget o g t st).project.python = st.project.python := by
  simp only [registerTarget]
  split_ifs
  · exact configureResources_python
  · rfl
  · exact configureSourceSets_python.trans configureResources_python
  · exact configureSourceSets_python

theorem configureTarget_python [DecidableEq τ] {o : SetOrders τ} :
    (configureTarget o g t st).1.project.python = st.project.python := by
  by_cases h : t ∈ st.analyzed
  · rw [configureTarget_of_mem h]
  · rw [configureTarget_of_not_mem h, registerTarget_python]

end JvmState

namespace Project
variable [DecidableEq τ] [Fintype τ] {o : SetOrders τ} {g : BuildGraph τ β} {p : Project τ}
  {st : JvmState τ}

theorem analyze_python : (p.analyze o g st).project.python = st.project.python := by
  unfold analyze
  induction p.targets generalizing st with
  | nil => rfl
  | cons t ts ih =>
    rw [List.foldl, ih]
    exact BuildGraph.walkFrom_preserves g _ _
      (fun s : JvmState τ => s.project.python = st.project.python)
      (fun _ _ _ h => JvmState.configureTarget_python.trans h) [t] ∅ rfl

/-- `configure_jvm` leaves the Python roots as they were. -/
theorem configureJvm_python {env : Env}
    {testBases extraSourcePaths extraTestPaths : List (List Char)}
    {res : Project τ × List τ × List (List Char)}
    (h : p.configureJvm o env g testBases extraSourcePaths extraTestPaths = some res) :
    res.1.python = p.python := by
  obtain ⟨-, -, -, -, rfl⟩ := configureJvm_eq_some h
  exact analyze_python

end Project

/-! ## What `configure_project` leaves in the project -/

namespace IdeGen

/-- The project `configure_python` hands to `configure_jvm`: a new project with the Python
roots of the options, and none of the flags. -/
theorem configureProject_python {opts : IdeGenOptions} {env : Env} {p p' : Project τ}
    {testBases tb : List (List Char)}
    (h : (if opts.python then
        p.configurePython env testBases opts.pythonSourcePaths opts.pythonTestPaths
          opts.pythonLibPaths
      else pure (p, testBases)) = some (p', tb))
    (hnew : p.python = ([], []) ∧ p.flags = (false, false, [])) :
    p'.python = ((if opts.python then
        opts.pythonSourcePaths.map (fun root => ⟨env.buildroot, root, none, false, []⟩) ++
          opts.pythonTestPaths.map (fun root => ⟨env.buildroot, root, none, true, []⟩) else []),
      (if opts.python then opts.pythonLibPaths.flatMap (fun root =>
          (Project.pythonLibPaths env root).map fun path =>
            ⟨env.buildroot, root, some path, false, []⟩)
        else [])) ∧ p'.flags = (false, false, []) := by
  simp only [Project.python, Project.flags, Prod.mk.injEq] at hnew ⊢
  split at h
  · simp only [Project.configurePython, Project.extendRoots_eq, Project.foldlM_addLibRoot] at h
    split at h
    · cases h; simp [*]
    · cases h
  · cases h; simp [*]

variable [DecidableEq τ] [Fintype τ]

/-- What `configure_project` leaves in the project: the Python roots `configure_python`
registers (none without the `python` option), `has_scala` exactly when one of the targets it
returns is a Scala target, `has_tests` exactly when one is a test target, and the extensions of
the resources of those targets, each once. -/
theorem configureProject_project {opts : IdeGenOptions} {o : SetOrders τ} {env : Env}
    {g : BuildGraph τ β} {roots targets : List τ} {testBases testBases' : List (List Char)}
    {project : Project τ}
    (h : configureProject opts o env g roots testBases = some (targets, project, testBases')) :
    project.pySources = (if opts.python then
      opts.pythonSourcePaths.map (fun root => ⟨env.buildroot, root, none, false, []⟩) ++
        opts.pythonTestPaths.map (fun root => ⟨env.buildroot, root, none, true, []⟩) else []) ∧
    project.pyLibs = (if opts.python then opts.pythonLibPaths.flatMap (fun root =>
      (Project.pythonLibPaths env root).map fun path => ⟨env.buildroot, root, some path, false, []⟩)
      else []) ∧
    (project.hasScala = true ↔ ∃ t ∈ targets, isScala (g.get t) = true) ∧
    (project.hasTests = true ↔ ∃ t ∈ targets, (g.get t).isTest = true) ∧
    (∀ e, e ∈ project.resourceExtensions ↔ ∃ t ∈ targets, (g.get t).hasResources = true ∧
      ∃ grp ∈ (g.get t).resources, ∃ r ∈ grp.sources, e = (splitext r).2) ∧
    project.resourceExtensions.Nodup := by
  unfold configureProject at h
  obtain ⟨⟨p, tb⟩, hpy, h⟩ := Option.bind_eq_some.1 h
  obtain ⟨⟨project', targets', tb'⟩, hjvm, h⟩ := Option.bind_eq_some.1 h
  cases h
  obtain ⟨hpython, hnew⟩ := configureProject_python hpy ⟨rfl, rfl⟩
  have hmem : ∀ t, t ∈ (p.analyze o g (.init p tb)).analyzed ↔ t ∈ targets := fun t =>
    (Project.analyze_init_iff_expanded o tb t).trans (Project.mem_configureJvm_targets hjvm t).symm
  have hpy' : project.python = p.python := Project.configureJvm_python hjvm
  rw [hpython] at hpy'
  simp only [Project.python, Prod.mk.injEq] at hpy'
  obtain ⟨_, _, -, -, hres⟩ := Project.configureJvm_eq_some hjvm
  obtain rfl := congrArg Prod.fst hres
  have hf : (p.analyze o g (.init p tb)).FlagsOf g := Project.analyze_flagsOf (.init hnew)
  have hflags := hf.analyzed (Project.analyze_init_sources o tb)
  simp only [← hmem]
  exact ⟨hpy'.1, hpy'.2, hflags.1, hflags.2, hf.resourceExtensions, hf.nodup⟩

/-- The `python` option on, with the source root `py`, the test root `tests` and the library
root `src`, for the project `project` in `/w`. -/
def pythonOptions : IdeGenOptions :=
  ⟨"project".toList, "/w".toList, true, false, false, false, ["py".toList], ["tests".toList],
    ["src".toList], [], []⟩

theorem sibling_configureProject_project : ∃ targets project testBases',
    configureProject pythonOptions dedupOrders siblingEnv siblingGraph [0] [] =
      some (targets, project, testBases') ∧
    project.pySources = (if pythonOptions.python then
      pythonOptions.pythonSourcePaths.map (fun root =>
        ⟨siblingEnv.buildroot, root, none, false, []⟩) ++
        pythonOptions.pythonTestPaths.map (fun root =>
          ⟨siblingEnv.buildroot, root, none, true, []⟩) else []) ∧
    project.pyLibs = (if pythonOptions.python then pythonOptions.pythonLibPaths.flatMap (fun root =>
      (Project.pythonLibPaths siblingEnv root).map fun path =>
        ⟨siblingEnv.buildroot, root, some path, false, []⟩) else []) ∧
    (project.hasScala = true ↔ ∃ t ∈ targets, isScala (siblingGraph.get t) = true) ∧
    (project.hasTests = true ↔ ∃ t ∈ targets, (siblingGraph.get t).isTest = true) ∧
    (∀ e, e ∈ project.resourceExtensions ↔ ∃ t ∈ targets,
      (siblingGraph.get t).hasResources = true ∧
      ∃ grp ∈ (siblingGraph.get t).resources, ∃ r ∈ grp.sources, e = (splitext r).2) ∧
    project.resourceExtensions.Nodup := by
  obtain ⟨⟨targets, project, tb⟩, h⟩ := Option.isSome_iff_exists.1 (by decide :
    (configureProject pythonOptions dedupOrders siblingEnv siblingGraph [0] []).isSome)
  exact ⟨targets, project, tb, h, configureProject_project h⟩

/-- The library root `src` holds one directory, `a`, so the run registers one library. -/
example : (configureProject pythonOptions dedupOrders siblingEnv siblingGraph [0] []).map
    (fun r => (r.2.1.pySources.length, r.2.1.pyLibs.map SourceSet.path)) =
      some (2, [some "a".toList]) := by
  decide

end IdeGen
end PantsIde
