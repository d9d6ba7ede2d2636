import PantsIde.Closure

/-! # The project and the compile context of `IdeGen`

`IdeGen.__init__` configures the project from the JVM targets of the context
(`configure_project`), then trims the context to the targets the IDE needs as jars
(`configure_compile_context`): it walks from every target `configure_jvm` returned, gathers the
excludes and the jar dependencies with a `rev` of each JVM target it visits, and compiles what a
walk reaches from each JVM target `is_cp` selects.

`configureCompileContext_mem` says what the compile context holds for any targets it is given,
and `init_compileContext` composes it with the expansion of `configure_jvm`: the context holds
only what the expansion reaches. A root that fails `source_target` and that no expanded target
depends on is therefore neither a source set nor compiled, and its jars are not on the
classpath (`javaRoot_init`), though the `java` option promises to compile the java targets it
keeps out of the project.

`init_intransitive` says what `--intransitive` does: the expansion is the roots' JVM targets
that pass `source_target`, and every JVM target they reach that is not a root is compiled. -/

namespace PantsIde
open Relation

variable {τ β : Type}

/-- What `IdeGen.__init__` reads of its options and configuration to configure the project and
the compile context. -/
structure IdeGenOptions where
  projectName : List Char
  workDir : List Char
  python : Bool
  skipJava : Bool
  skipScala : Bool
  intransitive : Bool
  pythonSourcePaths : List (List Char)
  pythonTestPaths : List (List Char)
  pythonLibPaths : List (List Char)
  extraSourcePaths : List (List Char)
  extraTestPaths : List (List Char)

/-- The ordered sets `configure_compile_context` fills: `jars`, `excludes` and `compiles`. -/
structure CompileState (τ : Type) where
  jars : List JarDependency
  excludes : List Exclude
  compiles : List τ

/-- The target `configure_compile_context` adds to the context: a `JvmBinary` at `work_dir`
named `<project>-external-jars`, over the gathered jars and excludes. -/
structure JvmBinary where
  address : List Char
  name : List Char
  dependencies : List JarDependency
  excludes : List Exclude
  configurations : List (List Char)

namespace IdeGen
variable [DecidableEq τ] [Fintype τ]

/-- Modelled from the spec (§4.1): `context.targets()`, the roots and every target their
dependencies reach, each once, in walk order. -/
def contextTargets (g : BuildGraph τ β) (roots : List τ) : List τ :=
  roots.foldl (fun ts r => g.walk (fun t ts => (setAdd t ts, [])) (fun _ => true) r ts) []

/-- `configure_project(context.targets(), ...)`: the targets `configure_jvm` returns, the
configured project and `SourceSet.TEST_BASES`. -/
def configureProject (opts : IdeGenOptions) (o : SetOrders τ) (env : Env) (g : BuildGraph τ β)
    (roots : List τ) (testBases : List (List Char)) :
    Option (List τ × Project τ × List (List Char)) := do
  let jvmTargets := g.extractJvmTargets (contextTargets g roots)
  let jvmTargets :=
    if opts.intransitive then o.targets.arrange (roots.filter (· ∈ jvmTargets)) else jvmTargets
  let project := Project.new opts.skipJava opts.skipScala env.buildroot jvmTargets
    !opts.intransitive
  let (project, testBases) ← (if opts.python then
      project.configurePython env testBases opts.pythonSourcePaths opts.pythonTestPaths
        opts.pythonLibPaths
    else pure (project, testBases))
  let (project, allTargets, testBases) ← project.configureJvm o env g testBases
    opts.extraSourcePaths opts.extraTestPaths
  pure (allTargets, project, testBases)

/-- `is_cp` of `configure_compile_context`: the targets the IDE gets as compiled jars. -/
def isCp (opts : IdeGenOptions) (roots : List τ) (g : BuildGraph τ β) (t : τ) : Bool :=
  (g.get t).isCodegen || (g.get t).isApt || (opts.skipJava && isJava (g.get t)) ||
    (opts.skipScala && isScala (g.get t)) || (opts.intransitive && decide (t ∉ roots))

/-- `prune(target)`: for a JVM target, add its excludes and its jar dependencies with a `rev`,
and when `is_cp` selects it, every target a walk from it visits to `compiles`. -/
def prune (opts : IdeGenOptions) (roots : List τ) (g : BuildGraph τ β) (t : τ)
    (st : CompileState τ) : CompileState τ × List τ :=
  let tgt := g.get t
  if tgt.isJvm then
    let excludes := if tgt.excludes.isEmpty then st.excludes else setUpdate tgt.excludes st.excludes
    let jars := setUpdate (tgt.jarDependencies.filter JarDependency.hasRev) st.jars
    let compiles := if isCp opts roots g t then
        g.walk (fun t cs => (setAdd t cs, [])) (fun _ => true) t st.compiles
      else st.compiles
    (⟨jars, excludes, compiles⟩, [])
  else (st, [])

/-- `configure_compile_context(targets)`: the targets the context is replaced with and the
external-jars binary it gets. -/
def configureCompileContext (opts : IdeGenOptions) (roots : List τ) (g : BuildGraph τ β)
    (targets : List τ) : List τ × JvmBinary :=
  let st := targets.foldl (fun st t => g.walk (prune opts roots g) (fun _ => true) t st) ⟨[], [], []⟩
  (st.compiles, ⟨opts.workDir, opts.projectName ++ "-external-jars".toList, st.jars, st.excludes,
    ["default".toList, "sources".toList, "javadoc".toList]⟩)

/-- What `IdeGen.__init__` configures: the project, `SourceSet.TEST_BASES`, the targets of the
compile context and the external-jars binary. -/
def init (opts : IdeGenOptions) (o : SetOrders τ) (env : Env) (g : BuildGraph τ β)
    (roots : List τ) (testBases : List (List Char)) :
    Option (Project τ × List (List Char) × List τ × JvmBinary) := do
  let (targets, project, testBases) ← configureProject opts o env g roots testBases
  let (compiles, binary) := configureCompileContext opts roots g targets
  pure (project, testBases, compiles, binary)

/-! ## One call of `prune` -/

section Prune
variable {opts : IdeGenOptions} {roots : List τ} {g : BuildGraph τ β} {t : τ} {st : CompileState τ}

@[simp] theorem prune_snd : (prune opts roots g t st).2 = [] := by
  by_cases h : (g.get t).isJvm <;> simp [prune, h]

theorem mem_prune_jars {j : JarDependency} : j ∈ (prune opts roots g t st).1.jars ↔
    j ∈ st.jars ∨ (g.get t).isJvm ∧ j ∈ (g.get t).jarDependencies ∧ j.hasRev := by
  by_cases h : (g.get t).isJvm <;> simp [prune, h]

theorem mem_prune_excludes {e : Exclude} : e ∈ (prune opts roots g t st).1.excludes ↔
    e ∈ st.excludes ∨ (g.get t).isJvm ∧ e ∈ (g.get t).excludes := by
  by_cases h : (g.get t).isJvm
  · by_cases he : (g.get t).excludes = [] <;> simp [prune, h, he]
  · simp [prune, h]

theorem mem_prune_compiles {u : τ} : u ∈ (prune opts roots g t st).1.compiles ↔
    u ∈ st.compiles ∨ (g.get t).isJvm ∧ isCp opts roots g t ∧ ReflTransGen (DependsOn g) t u := by
  have hwalk := g.walk_holds_iff (fun t cs => (setAdd t cs, [])) (fun _ => true)
    (fun cs u => u ∈ cs) (fun t u => u = t) (fun _ _ => rfl) (fun _ _ _ _ => mem_setAdd) t
    st.compiles u
  by_cases h : (g.get t).isJvm
  · by_cases hc : isCp opts roots g t <;> simp_all [prune]
  · simp [prune, h]

end Prune

/-! ## What the compile context holds -/

section Context
variable (opts : IdeGenOptions) (roots : List τ) (g : BuildGraph τ β) (targets : List τ)

/-- The walks of `configure_compile_context` add to one of the ordered sets what `prune` adds
for each target the targets reach. -/
theorem configureCompileContext_holds_iff {α : Type} (M : CompileState τ → α → Prop)
    (C : τ → α → Prop) (hwork : ∀ t st x, M (prune opts roots g t st).1 x ↔ M st x ∨ C t x)
    (hnil : ∀ x, ¬M ⟨[], [], []⟩ x) (x : α) :
    M (targets.foldl (fun st t => g.walk (prune opts roots g) (fun _ => true) t st)
      ⟨[], [], []⟩) x ↔ ∃ r ∈ targets, ∃ t, ReflTransGen (DependsOn g) r t ∧ C t x := by
  rw [g.foldl_walk_holds_iff (prune opts roots g) (fun _ => true) M C (fun _ _ => prune_snd)
    (fun t st x _ => hwork t st x) targets ⟨[], [], []⟩ x]
  simp [hnil]

theorem mem_configureCompileContext_compiles (u : τ) :
    u ∈ (configureCompileContext opts roots g targets).1 ↔ ∃ x ∈ targets, ∃ t,
      ReflTransGen (DependsOn g) x t ∧ (g.get t).isJvm ∧ isCp opts roots g t ∧
        ReflTransGen (DependsOn g) t u :=
  configureCompileContext_holds_iff opts roots g targets (fun st u => u ∈ st.compiles) _
    (fun _ _ _ => mem_prune_compiles) (fun _ => List.not_mem_nil _) u

theorem mem_configureCompileContext_jars (j : JarDependency) :
    j ∈ (configureCompileContext opts roots g targets).2.dependencies ↔ ∃ x ∈ targets, ∃ t,
      ReflTransGen (DependsOn g) x t ∧ (g.get t).isJvm ∧ j ∈ (g.get t).jarDependencies ∧
        j.hasRev :=
  configureCompileContext_holds_iff opts roots g targets (fun st j => j ∈ st.jars) _
    (fun _ _ _ => mem_prune_jars) (fun _ => List.not_mem_nil _) j

theorem mem_configureCompileContext_excludes (e : Exclude) :
    e ∈ (configureCompileContext opts roots g targets).2.excludes ↔ ∃ x ∈ targets, ∃ t,
      ReflTransGen (DependsOn g) x t ∧ (g.get t).isJvm ∧ e ∈ (g.get t).excludes :=
  configureCompileContext_holds_iff opts roots g targets (fun st e => e ∈ st.excludes) _
    (fun _ _ _ => mem_prune_excludes) (fun _ => List.not_mem_nil _) e

/-- The compile context of any targets: it compiles what a walk reaches from each JVM target
`is_cp` selects among those the targets reach, and its binary gathers the jar dependencies with
a `rev` and the excludes of every JVM target they reach. -/
theorem configureCompileContext_mem :
    (∀ u, u ∈ (configureCompileContext opts roots g targets).1 ↔ ∃ x ∈ targets, ∃ t,
      ReflTransGen (DependsOn g) x t ∧ (g.get t).isJvm ∧ isCp opts roots g t ∧
        ReflTransGen (DependsOn g) t u) ∧
    (∀ j, j ∈ (configureCompileContext opts roots g targets).2.dependencies ↔ ∃ x ∈ targets, ∃ t,
      ReflTransGen (DependsOn g) x t ∧ (g.get t).isJvm ∧ j ∈ (g.get t).jarDependencies ∧
        j.hasRev) ∧
    (∀ e, e ∈ (configureCompileContext opts roots g targets).2.excludes ↔ ∃ x ∈ targets, ∃ t,
      ReflTransGen (DependsOn g) x t ∧ (g.get t).isJvm ∧ e ∈ (g.get t).excludes) ∧
    (configureCompileContext opts roots g targets).2.name =
      opts.projectName ++ "-external-jars".toList :=
  ⟨mem_configureCompileContext_compiles opts roots g targets,
    mem_configureCompileContext_jars opts roots g targets,
    mem_configureCompileContext_excludes opts roots g targets, rfl⟩

end Context

end IdeGen

/-! ## A java root under `--no-java`

One JVM target with a java source and a jar dependency at a `rev`, the only root of the
context, with the `java` option off. -/

/-- The target `0`: `Foo.java` below `src`, depending on the jar `junit` at rev `4.11`. -/
def javaRootGraph : BuildGraph (Fin 1) Unit where
  get _ := ⟨(), "src".toList, ["Foo.java".toList], false, [], [],
    [⟨"junit".toList, some "4.11".toList⟩], [], true, false, false, false, false, false⟩
  addresses _ := [0]
  ancestors _ := []
  siblings _ := []
  descendants _ := []

/-- The disk: `/r/src`. -/
def javaRootEnv : Env :=
  ⟨⟨.dir [("r".toList, .dir [("src".toList, .dir [])])], by decide⟩, "/".toList, "/r".toList⟩

/-- `--no-java`, the other options at their defaults, for the project `project` in `/w`. -/
def noJavaOptions : IdeGenOptions :=
  ⟨"project".toList, "/w".toList, false, true, false, false, [], [], [], [], []⟩

namespace IdeGen
variable [DecidableEq τ] [Fintype τ]

/-- `configure_project` ends with `configure_jvm`: the targets and the project it returns are
those `configure_jvm` returns. -/
theorem configureProject_eq_some {opts : IdeGenOptions} {o : SetOrders τ} {env : Env}
    {g : BuildGraph τ β} {roots : List τ} {testBases testBases' : List (List Char)}
    {targets : List τ} {project : Project τ}
    (h : configureProject opts o env g roots testBases = some (targets, project, testBases')) :
    ∃ p : Project τ, ∃ tb, p.configureJvm o env g tb opts.extraSourcePaths opts.extraTestPaths =
      some (project, targets, testBases') := by
  unfold configureProject at h
  obtain ⟨⟨p, tb⟩, -, h⟩ := Option.bind_eq_some.1 h
  obtain ⟨⟨project', targets', tb'⟩, hjvm, h⟩ := Option.bind_eq_some.1 h
  cases h
  exact ⟨p, tb, hjvm⟩

/-- `IdeGen.__init__` trims the context from the targets `configure_jvm` returns, which are the
expansion of the configured project. -/
theorem init_eq_some {opts : IdeGenOptions} {o : SetOrders τ} {env : Env}
    {g : BuildGraph τ β} {roots : List τ} {testBases testBases' : List (List Char)}
    {project : Project τ} {compiles : List τ} {binary : JvmBinary}
    (h : init opts o env g roots testBases = some (project, testBases', compiles, binary)) :
    ∃ targets, configureProject opts o env g roots testBases = some (targets, project, testBases') ∧
      (∀ x, x ∈ targets ↔ Project.Expanded g project x) ∧
      configureCompileContext opts roots g targets = (compiles, binary) := by
  unfold init at h
  obtain ⟨⟨targets, project', tb⟩, hproj, h⟩ := Option.bind_eq_some.1 h
  cases h
  obtain ⟨p, tb', hjvm⟩ := configureProject_eq_some hproj
  exact ⟨targets, hproj, fun x => (Project.mem_configureJvm_targets hjvm x).trans
    (Project.expanded_congr (Project.configureJvm_settings hjvm).symm), rfl⟩

/-- The compile context of `IdeGen.__init__` reaches only from the expansion of the configured
project: it compiles what a walk reaches from each JVM target `is_cp` selects among those the
expansion reaches, and its binary gathers the jar dependencies with a `rev` of the JVM targets
the expansion reaches. -/
theorem init_compileContext {opts : IdeGenOptions} {o : SetOrders τ} {env : Env}
    {g : BuildGraph τ β} {roots : List τ} {testBases testBases' : List (List Char)}
    {project : Project τ} {compiles : List τ} {binary : JvmBinary}
    (h : init opts o env g roots testBases = some (project, testBases', compiles, binary)) :
    (∀ u, u ∈ compiles ↔ ∃ x, Project.Expanded g project x ∧ ∃ t,
      ReflTransGen (DependsOn g) x t ∧ (g.get t).isJvm ∧ isCp opts roots g t ∧
        ReflTransGen (DependsOn g) t u) ∧
    (∀ j, j ∈ binary.dependencies ↔ ∃ x, Project.Expanded g project x ∧ ∃ t,
      ReflTransGen (DependsOn g) x t ∧ (g.get t).isJvm ∧ j ∈ (g.get t).jarDependencies ∧
        j.hasRev) := by
  obtain ⟨targets, -, hmem, hcc⟩ := init_eq_some h
  obtain ⟨rfl, rfl⟩ := Prod.ext_iff.1 hcc
  exact ⟨fun u => (mem_configureCompileContext_compiles opts roots g targets u).trans
      (by simp only [hmem]),
    fun j => (mem_configureCompileContext_jars opts roots g targets j).trans (by simp only [hmem])⟩

theorem javaRoot_compileContext : ∃ project testBases' compiles binary,
    init noJavaOptions dedupOrders javaRootEnv javaRootGraph [0] [] =
      some (project, testBases', compiles, binary) ∧
    (∀ u, u ∈ compiles ↔ ∃ x, Project.Expanded javaRootGraph project x ∧ ∃ t,
      ReflTransGen (DependsOn javaRootGraph) x t ∧ (javaRootGraph.get t).isJvm ∧
        isCp noJavaOptions [0] javaRootGraph t ∧ ReflTransGen (DependsOn javaRootGraph) t u) ∧
    (∀ j, j ∈ binary.dependencies ↔ ∃ x, Project.Expanded javaRootGraph project x ∧ ∃ t,
      ReflTransGen (DependsOn javaRootGraph) x t ∧ (javaRootGraph.get t).isJvm ∧
        j ∈ (javaRootGraph.get t).jarDependencies ∧ j.hasRev) := by
  obtain ⟨⟨project, testBases', compiles, binary⟩, h⟩ := Option.isSome_iff_exists.1
    (by decide : (init noJavaOptions dedupOrders javaRootEnv javaRootGraph [0] []).isSome)
  exact ⟨project, testBases', compiles, binary, h, init_compileContext h⟩

end IdeGen

/-- The root is a JVM target with sources and a jar at a `rev`; `configure_jvm` analyzes
nothing and makes no source set, the compile context is empty and so is the binary. -/
theorem javaRoot_init : (javaRootGraph.get 0).isJvm ∧ (javaRootGraph.get 0).sources ≠ [] ∧
    (javaRootGraph.get 0).jarDependencies.any JarDependency.hasRev ∧
    ((Project.new true false "/r".toList [0] true).analyze dedupOrders javaRootGraph
      (.init (Project.new true false "/r".toList [0] true) [])).analyzed = [] ∧
    (IdeGen.init noJavaOptions dedupOrders javaRootEnv javaRootGraph [0] []).map
      (fun r => (r.1.sources.length, r.2.2.1, r.2.2.2.dependencies)) = some (0, [], []) := by
  decide


/-! ## `--intransitive`

Under `--intransitive` the project is not transitive and names only roots of the context, so
`source_target` admits no target beyond them, while `is_cp` selects every other target. -/

theorem mem_orderedSet {α : Type} [DecidableEq α] {x : α} {xs : List α} :
    x ∈ orderedSet xs ↔ x ∈ xs := by
  show x ∈ setUpdate xs [] ↔ _
  simp

/-- `configure_python` only adds roots: it keeps the settings of the project. -/
theorem IdeGen.configurePython_settings {python : Bool} {env : Env} {p p' : Project τ}
    {testBases tb sourceRoots testRoots libRoots : List (List Char)}
    (h : (if python then p.configurePython env testBases sourceRoots testRoots libRoots
      else pure (p, testBases)) = some (p', tb)) : p'.settings = p.settings := by
  split at h
  · unfold Project.configurePython at h
    obtain ⟨_, -, h⟩ := Option.bind_eq_some.1 h
    cases h
    rfl
  · cases h
    rfl

/-- Two JVM targets with java sources below `src`: the root `0` in `app`, depending on `1` in
`lib`. -/
def layeredGraph : BuildGraph (Fin 2) Unit where
  get i := ⟨(), "src".toList, [if i = 0 then "app/Main.java".toList else "lib/Util.java".toList],
    false, [], if i = 0 then [1] else [], [], [], true, false, false, false, false, false⟩
  addresses _ := [0, 1]
  ancestors _ := []
  siblings _ := []
  descendants _ := []

/-- The disk: `/r/src/app` and `/r/src/lib`. -/
def layeredEnv : Env :=
  ⟨⟨.dir [("r".toList, .dir [("src".toList,
    .dir [("app".toList, .dir []), ("lib".toList, .dir [])])])], by decide⟩,
    "/".toList, "/r".toList⟩

/-- `--intransitive`, the other options at their defaults, for the project `project` in `/w`. -/
def intransitiveOptions : IdeGenOptions :=
  ⟨"project".toList, "/w".toList, false, false, false, true, [], [], [], [], []⟩

namespace IdeGen
variable [DecidableEq τ] [Fintype τ]

/-- Under `--intransitive` the project `configure_project` configures is not transitive, and its
targets are roots of the context. -/
theorem configureProject_intransitive {opts : IdeGenOptions} {o : SetOrders τ} {env : Env}
    {g : BuildGraph τ β} {roots targets : List τ} {testBases testBases' : List (List Char)}
    {project : Project τ} (hi : opts.intransitive = true)
    (h : configureProject opts o env g roots testBases = some (targets, project, testBases')) :
    project.transitive = false ∧ ∀ t ∈ project.targets, t ∈ roots := by
  unfold configureProject at h
  obtain ⟨⟨p, tb⟩, hpy, h⟩ := Option.bind_eq_some.1 h
  obtain ⟨⟨project', targets', tb'⟩, hjvm, h⟩ := Option.bind_eq_some.1 h
  cases h
  have hs := (Project.configureJvm_settings hjvm).trans (configurePython_settings hpy)
  simp only [Project.settings, Prod.mk.injEq] at hs
  rw [hs.2.2.1, hs.2.1]
  simp only [Project.new, hi, if_true, Bool.not_true, true_and]
  exact fun t ht => (List.mem_filter.1 ((o.targets.mem_arrange _ t).1 (mem_orderedSet.1 ht))).1

/-- `--intransitive` "limits the sources included in the generated project to just those owned
by the targets specified on the command line": the expansion is the roots' JVM targets that
pass `source_target`, and every JVM target they reach that is not a root is compiled, with
what it reaches, into the jars of the compile context. -/
theorem init_intransitive {opts : IdeGenOptions} {o : SetOrders τ} {env : Env}
    {g : BuildGraph τ β} {roots : List τ} {testBases testBases' : List (List Char)}
    {project : Project τ} {compiles : List τ} {binary : JvmBinary} (hi : opts.intransitive = true)
    (h : init opts o env g roots testBases = some (project, testBases', compiles, binary)) :
    (∀ t, Project.Expanded g project t ↔ t ∈ project.targets ∧ project.sourceTarget g t = true) ∧
    (∀ t ∈ project.targets, t ∈ roots) ∧
    ∀ x, Project.Expanded g project x → ∀ t, ReflTransGen (DependsOn g) x t →
      (g.get t).isJvm = true → t ∉ roots → ∀ u, ReflTransGen (DependsOn g) t u → u ∈ compiles := by
  obtain ⟨targets, hproj, hmem, hcc⟩ := init_eq_some h
  obtain ⟨rfl, -⟩ := Prod.ext_iff.1 hcc
  obtain ⟨htrans, hroots⟩ := configureProject_intransitive hi hproj
  refine ⟨fun t => Project.expanded_iff_of_not_transitive htrans, hroots,
    fun x hx t hxt hjvm hnr u htu => ?_⟩
  exact (mem_configureCompileContext_compiles opts roots g targets u).2
    ⟨x, (hmem x).2 hx, t, hxt, hjvm, by simp [isCp, hi, hnr], htu⟩

theorem layered_init_intransitive : intransitiveOptions.intransitive = true ∧
    ∃ project testBases' compiles binary,
    init intransitiveOptions dedupOrders layeredEnv layeredGraph [0] [] =
      some (project, testBases', compiles, binary) ∧
    (∀ t, Project.Expanded layeredGraph project t ↔
      t ∈ project.targets ∧ project.sourceTarget layeredGraph t = true) ∧
    (∀ t ∈ project.targets, t ∈ [0]) ∧
    ∀ x, Project.Expanded layeredGraph project x → ∀ t, ReflTransGen (DependsOn layeredGraph) x t →
      (layeredGraph.get t).isJvm = true → t ∉ [0] → ∀ u, ReflTransGen (DependsOn layeredGraph) t u →
        u ∈ compiles := by
  obtain ⟨⟨project, testBases', compiles, binary⟩, h⟩ := Option.isSome_iff_exists.1 (by decide :
    (init intransitiveOptions dedupOrders layeredEnv layeredGraph [0] []).isSome)
  have hres := init_intransitive rfl h
  exact ⟨rfl, project, testBases', compiles, binary, h, hres⟩

/-- The project has the one source set of the root, and the dependency is compiled. -/
example : (init intransitiveOptions dedupOrders layeredEnv layeredGraph [0] []).map
    (fun r => (r.1.sources.map SourceSet.path, r.2.2.1)) = some ([some "app".toList], [1]) := by
  decide

end IdeGen
end PantsIde
