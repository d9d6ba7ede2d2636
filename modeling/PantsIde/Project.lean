import PantsIde.Filesystem
import PantsIde.Target

/-! # `SourceSet`, `Project` and `Project.configure_jvm`

The faithful model of the `Project` half of `ide_gen.py`. `Project.configure_jvm` runs in four
phases, each a definition of its own:

* `Project.analyze`: `target.walk(configure_target, predicate=source_target)` from every
  member of `project.targets`, sharing the state of the closures (`JvmState`: the `analyzed`
  targets, the `targeted` directory strings and the project's fields it writes);
* `unexcludablePaths`: the `while True` loop walking each source set's directory string up to
  `root_dir` with `os.path.split`, run with a bound on its rounds that is never reached when
  the loop stops (`none` when it does not stop);
* `SourceSet.addExcludes`: `os.walk` below each source set and the unused, excludable
  subdirectories as excludes;
* `Project.projectTargets`: the targets the walk reaches, then the analyzed rest.

Python sets and dicts are iterated in an order the code does not fix; `IterOrder` takes it as
a parameter, so every result holds for every such order. `SourceSet.TEST_BASES`, a class-level
set shared by the process, is threaded through as `testBases`. -/

namespace PantsIde
open PosixPath

/-- The iteration order of a Python `set` or `dict` built by the given insertions: each element
once, in an order the code does not fix. -/
structure IterOrder (α : Type) where
  arrange : List α → List α
  nodup : ∀ xs, (arrange xs).Nodup
  mem_arrange : ∀ xs x, x ∈ arrange xs ↔ x ∈ xs

/-- An iteration order: last insertions first kept (`List.dedup`). -/
def IterOrder.dedup {α : Type} [DecidableEq α] : IterOrder α where
  arrange := List.dedup
  nodup := List.nodup_dedup
  mem_arrange _ _ := List.mem_dedup

/-- The iteration orders of the sets and dicts `configure_jvm` iterates: of path strings
(source directories, resource bases, unused children) and of addresses (sibling candidates). -/
structure SetOrders (τ : Type) where
  paths : IterOrder (List Char)
  targets : IterOrder τ

/-- One choice of the iteration orders, the one the runs on fixed inputs below use:
`IterOrder.dedup` (each element at its last insertion) for paths and for addresses. -/
def dedupOrders {τ : Type} [DecidableEq τ] : SetOrders τ := ⟨.dedup, .dedup⟩

/-- `s.add(x)` on a set or an `OrderedSet` kept as the list of its insertions. -/
def setAdd {α : Type} [DecidableEq α] (x : α) (s : List α) : List α := if x ∈ s then s else s ++ [x]

@[simp] theorem mem_setAdd {α : Type} [DecidableEq α] {x y : α} {s : List α} :
    y ∈ setAdd x s ↔ y ∈ s ∨ y = x := by
  unfold setAdd; split <;> simp_all [or_iff_left_of_imp]

/-- `s.update(xs)` on a set or an `OrderedSet`. -/
def setUpdate {α : Type} [DecidableEq α] (xs s : List α) : List α := xs.foldl (fun s x => setAdd x s) s

@[simp] theorem mem_setUpdate {α : Type} [DecidableEq α] {x : α} {xs s : List α} :
    x ∈ setUpdate xs s ↔ x ∈ s ∨ x ∈ xs := by
  induction xs generalizing s with
  | nil => simp [setUpdate]
  | cons y xs ih => simp only [setUpdate, List.foldl_cons] at ih ⊢; simp [ih, or_assoc]

/-- `OrderedSet(xs)`. -/
def orderedSet {α : Type} [DecidableEq α] (xs : List α) : List α := xs.foldl (fun s x => setAdd x s) []

/-- What `ide_gen.py` reads of the process: the disk, `os.getcwd()` and `get_buildroot()`. -/
structure Env where
  fs : Filesystem
  cwd : List Char
  buildroot : List Char

/-- `SourceSet`. A source set built from targets has a `path`; the extra roots and the python
roots have `None`. -/
structure SourceSet where
  rootDir : List Char
  sourceBase : List Char
  path : Option (List Char)
  isTest : Bool
  excludes : List (List Char)
deriving DecidableEq

/-- `SourceSet(root_dir, source_base, path, is_test)`, adding `source_base` to
`SourceSet.TEST_BASES` for a test set. -/
def SourceSet.new (rootDir sourceBase : List Char) (path : Option (List Char)) (isTest : Bool)
    (testBases : List (List Char)) : SourceSet × List (List Char) :=
  (⟨rootDir, sourceBase, path, isTest, []⟩, if isTest then setAdd sourceBase testBases else testBases)

/-- `ClasspathEntry(jar, source_jar, javadoc_jar)`. -/
structure ClasspathEntry where
  jar : List Char
  sourceJar : Option (List Char)
  javadocJar : Option (List Char)
deriving DecidableEq

/-- The fields of `Project` that the modelled code reads or writes. -/
structure Project (τ : Type) where
  rootDir : List Char
  targets : List τ
  transitive : Bool
  sources : List SourceSet
  pySources : List SourceSet
  pyLibs : List SourceSet
  resourceExtensions : List (List Char)
  skipJava : Bool
  skipScala : Bool
  hasScala : Bool
  hasTests : Bool
  internalJars : List ClasspathEntry
  externalJars : List ClasspathEntry
  checkstyleClasspath : List (List Char)
  scalaCompilerClasspath : List (List Char)

variable {τ β : Type} [DecidableEq τ]

namespace Project

/-- `Project(name, has_python, skip_java, skip_scala, root_dir, ..., targets, transitive, ...)`. -/
def new (skipJava skipScala : Bool) (rootDir : List Char) (targets : List τ) (transitive : Bool) :
    Project τ :=
  ⟨rootDir, orderedSet targets, transitive, [], [], [], [], skipJava, skipScala, false, false, [],
    [], [], []⟩

/-- `set_tool_classpaths`. -/
def setToolClasspaths (p : Project τ) (checkstyleClasspath scalacClasspath : List (List Char)) :
    Project τ :=
  { p with checkstyleClasspath := checkstyleClasspath, scalaCompilerClasspath := scalacClasspath }

/-- `Project.extract_resource_extensions`. -/
def extractResourceExtensions (resources : List (List Char)) : List (List Char) :=
  resources.map fun resource => (splitext resource).2

/-- `sets.extend(SourceSet(buildroot, root, None, is_test) for root in roots)`, with
`SourceSet.TEST_BASES`. -/
def extendRoots (buildroot : List Char) (isTest : Bool) (roots : List (List Char))
    (acc : List SourceSet × List (List Char)) : List SourceSet × List (List Char) :=
  roots.foldl (fun acc root =>
    let (ss, tb) := SourceSet.new buildroot root none isTest acc.2
    (acc.1 ++ [ss], tb)) acc

/-- One round of the loop over `lib_roots` of `configure_python`: a source set for every entry
of `root` that is a directory or ends with `.egg`; `none` when `root` cannot be listed. -/
def addLibRoot (env : Env) (acc : List SourceSet × List (List Char)) (root : List Char) :
    Option (List SourceSet × List (List Char)) := do
  let names ← env.fs.listdir env.cwd (join env.buildroot root)
  pure <| names.foldl (fun acc path =>
    if env.fs.isdir env.cwd (join (join env.buildroot root) path) ||
        ".egg".toList.isSuffixOf path then
      let (ss, tb) := SourceSet.new env.buildroot root (some path) false acc.2
      (acc.1 ++ [ss], tb)
    else acc) acc

/-- `configure_python`: `none` when a library root cannot be listed. -/
def configurePython (env : Env) (p : Project τ) (testBases : List (List Char))
    (sourceRoots testRoots libRoots : List (List Char)) :
    Option (Project τ × List (List Char)) := do
  let (pySources, testBases) := extendRoots env.buildroot false sourceRoots (p.pySources, testBases)
  let (pySources, testBases) := extendRoots env.buildroot true testRoots (pySources, testBases)
  let (pyLibs, testBases) ← libRoots.foldlM (addLibRoot env) (p.pyLibs, testBases)
  pure ({ p with pySources := pySources, pyLibs := pyLibs }, testBases)

/-- `source_target` of `configure_jvm`. -/
def sourceTarget (p : Project τ) (g : BuildGraph τ β) (t : τ) : Bool :=
  (p.transitive || decide (t ∈ p.targets)) && (g.get t).hasSources [] &&
    (!(g.get t).isCodegen && !(p.skipJava && isJava (g.get t)) &&
      !(p.skipScala && isScala (g.get t)))

/-- `find_source_basedirs`. -/
def findSourceBasedirs (p : Project τ) (g : BuildGraph τ β) (t : τ) : List (List Char) :=
  if p.sourceTarget g t then
    (g.get t).sources.map fun source => join (join p.rootDir (g.get t).targetBase) (dirname source)
  else []

end Project

/-- The state the closures of `configure_jvm` share: the project, `analyzed`, `targeted`, and
`SourceSet.TEST_BASES`. -/
structure JvmState (τ : Type) where
  project : Project τ
  analyzed : List τ
  targeted : List (List Char)
  testBases : List (List Char)

namespace JvmState

/-- One round of the loop of `configure_source_sets`: register `path` below `relative_base`
unless its directory string is `targeted` already. -/
def registerPath (relativeBase : List Char) (isTest : Bool) (st : JvmState τ) (path : List Char) :
    JvmState τ :=
  let absolutePath := join (join st.project.rootDir relativeBase) path
  if absolutePath ∈ st.targeted then st
  else
    let (ss, testBases) :=
      SourceSet.new st.project.rootDir relativeBase (some path) isTest st.testBases
    { st with targeted := st.targeted ++ [absolutePath], testBases := testBases,
              project := { st.project with sources := st.project.sources ++ [ss] } }

/-- `configure_source_sets(relative_base, sources, is_test)`. -/
def configureSourceSets (o : IterOrder (List Char)) (relativeBase : List Char)
    (sources : List (List Char)) (isTest : Bool) (st : JvmState τ) : JvmState τ :=
  (o.arrange (sources.map dirname)).foldl (registerPath relativeBase isTest) st

/-- One round of the resources loop of `configure_target`: the files of the groups with base
`basedir`, their extensions and their source sets. -/
def configureResourceBase (o : IterOrder (List Char)) (groups : List Resources)
    (st : JvmState τ) (basedir : List Char) : JvmState τ :=
  let resources := (groups.filter (·.targetBase = basedir)).flatMap Resources.sources
  let extensions := (Project.extractResourceExtensions resources).foldl (fun s e => setAdd e s)
    st.project.resourceExtensions
  configureSourceSets o basedir resources false
    { st with project := { st.project with resourceExtensions := extensions } }

/-- The resources branch of `configure_target`: `resources_by_basedir`, one round per base. -/
def configureResources (o : IterOrder (List Char)) (groups : List Resources) (st : JvmState τ) :
    JvmState τ :=
  (o.arrange (groups.map Resources.targetBase)).foldl (configureResourceBase o groups) st

/-- The candidates of `configure_target`: the addresses of the target's BUILD file and of its
ancestor, sibling and descendant BUILD files. -/
def candidates (o : IterOrder τ) (g : BuildGraph τ β) (t : τ) : List τ :=
  let bf := (g.get t).buildfile
  o.arrange (g.addresses bf ++ (g.ancestors bf).flatMap g.addresses ++
    (g.siblings bf).flatMap g.addresses ++ (g.descendants bf).flatMap g.addresses)

/-- `is_sibling` of `configure_target`, for `target_dirset` of `t`. -/
def isSibling (p : Project τ) (g : BuildGraph τ β) (t c : τ) : Bool :=
  p.sourceTarget g c && (p.findSourceBasedirs g t).any (· ∈ p.findSourceBasedirs g c)

/-- The body of `configure_target` for a target not analyzed yet: mark it analyzed, update
`has_scala`, and configure the directories of its resources and of its sources. -/
def registerTarget (o : IterOrder (List Char)) (g : BuildGraph τ β) (t : τ) (st : JvmState τ) :
    JvmState τ :=
  let tgt := g.get t
  let p := st.project
  let st := { st with analyzed := st.analyzed ++ [t],
                      project := { p with hasScala := !p.skipScala && (p.hasScala || isScala tgt) } }
  let st := if tgt.hasResources then configureResources o tgt.resources st else st
  if tgt.sources = [] then st
  else configureSourceSets o tgt.targetBase tgt.sources tgt.isTest
    { st with project := { st.project with hasTests := st.project.hasTests || tgt.isTest } }

/-- `configure_target`: the new state and the sibling targets to walk. -/
def configureTarget (o : SetOrders τ) (g : BuildGraph τ β) (t : τ) (st : JvmState τ) :
    JvmState τ × List τ :=
  if t ∈ st.analyzed then (st, [])
  else
    let st := registerTarget o.paths g t st
    (st, ((candidates o.targets g t).filter (· ≠ t)).filter (isSibling st.project g t))

/-- The state `configure_jvm` starts from: nothing analyzed or targeted. -/
def init (p : Project τ) (testBases : List (List Char)) : JvmState τ := ⟨p, [], [], testBases⟩

end JvmState

/-- The `while True` loop filling `unexcludable_paths` from `parent`, for at most `fuel` rounds:
the strings it adds, or `none` when it has not stopped. -/
def unexcludableLoop (rootDir : List Char) : Nat → List Char → Option (List (List Char))
  | 0, _ => none
  | fuel + 1, parent =>
    if (split parent).1 = rootDir then some [parent]
    else (unexcludableLoop rootDir fuel (split parent).1).map (parent :: ·)

/-- The directory string of a source set, `os.path.join(root_dir, source_base, path)`; `none`
for a `path` of `None`, on which `join` raises. -/
def SourceSet.dirString (rootDir : List Char) (ss : SourceSet) : Option (List Char) :=
  ss.path.map (join (join rootDir ss.sourceBase))

/-- `unexcludable_paths`. Each loop runs at most one round per character of its start: a round
that does not stop shortens the string, except at a fixed point of `split`, where the Python
loop never stops. -/
def unexcludablePaths (rootDir : List Char) (sources : List SourceSet) :
    Option (List (List Char)) :=
  sources.foldlM (fun acc ss => do
    let parent ← ss.dirString rootDir
    let added ← unexcludableLoop rootDir (parent.length + 1) parent
    pure (acc ++ added)) []

/-- The body of the exclude loop of `configure_jvm` below the directory string `dir` of a
source set whose base string is `sourceBase`: the subdirectories `os.walk` yields that are
neither `targeted` nor unexcludable, relative to the base. -/
def excludesBelow (o : IterOrder (List Char)) (env : Env) (targeted unexcludable : List (List Char))
    (sourceBase dir : List Char) : List (List Char) :=
  let paths := FsNode.children (env.fs.walk env.cwd dir)
  let unusedChildren := o.arrange (paths.filter (· ∉ targeted))
  (unusedChildren.filter (· ∉ unexcludable)).map fun child => relpath env.cwd child sourceBase

/-- The exclude loop of `configure_jvm` for one source set; `none` for a `path` of `None`. -/
def SourceSet.addExcludes (o : IterOrder (List Char)) (env : Env) (rootDir : List Char)
    (targeted unexcludable : List (List Char)) (ss : SourceSet) : Option SourceSet := do
  let path ← ss.path
  let sourceBase := join rootDir ss.sourceBase
  pure { ss with
    excludes := ss.excludes ++ excludesBelow o env targeted unexcludable sourceBase
      (join sourceBase path) }

/-- The exclude loop only appends excludes, to a source set with a `path`. -/
theorem SourceSet.addExcludes_eq_some {o : IterOrder (List Char)} {env : Env}
    {rootDir : List Char} {targeted unexcludable : List (List Char)} {ss ss' : SourceSet}
    (h : ss.addExcludes o env rootDir targeted unexcludable = some ss') :
    let sourceBase := join rootDir ss.sourceBase
    ∃ path, ss.path = some path ∧ ss' = { ss with
      excludes := ss.excludes ++ excludesBelow o env targeted unexcludable sourceBase
        (join sourceBase path) } := by
  cases hp : ss.path <;> simp only [addExcludes, hp, Option.bind_eq_bind, Option.none_bind,
    Option.some_bind, pure, Option.some.injEq, reduceCtorEq] at h
  exact ⟨_, rfl, h.symm⟩

/-- A `mapM` into `Option` that succeeds maps each element to its image. -/
theorem List.forall₂_of_mapM_eq_some {α γ : Type} {f : α → Option γ} :
    ∀ {l : List α} {l' : List γ}, l.mapM f = some l' → List.Forall₂ (fun a b => f a = some b) l l'
  | [], l', h => by simp only [List.mapM_nil, pure, Option.some.injEq] at h; exact h ▸ .nil
  | a :: l, l', h => by
    simp only [List.mapM_cons, Option.bind_eq_bind, bind, Option.bind_eq_some, pure,
      Option.some.injEq] at h
    obtain ⟨b, hb, bs, hbs, rfl⟩ := h
    exact .cons hb (forall₂_of_mapM_eq_some hbs)

namespace Project

/-- The first phase of `configure_jvm`: `target.walk(configure_target, predicate=source_target)`
for every member of `self.targets`. -/
def analyze [Fintype τ] (o : SetOrders τ) (g : BuildGraph τ β) (p : Project τ)
    (st : JvmState τ) : JvmState τ :=
  p.targets.foldl (fun st t => g.walk (JvmState.configureTarget o g) (p.sourceTarget g) t st) st

/-- The returned targets of `configure_jvm`: those a walk with `source_target` reaches, then
`analyzed - targets`. -/
def projectTargets [Fintype τ] (g : BuildGraph τ β) (p : Project τ) (analyzed : List τ) :
    List τ :=
  let targets := p.targets.foldl
    (fun ts t => g.walk (fun t ts => (setAdd t ts, [])) (p.sourceTarget g) t ts) []
  targets ++ analyzed.filter (· ∉ targets)

/-- The extra roots of `configure_jvm`: `SourceSet(get_buildroot(), p, None, is_test)` for
each of `extra_source_paths`, then of `extra_test_paths`, with `SourceSet.TEST_BASES`. -/
def extraSourceSets (buildroot : List Char) (extraSourcePaths extraTestPaths : List (List Char))
    (testBases : List (List Char)) : List SourceSet × List (List Char) :=
  extendRoots buildroot true extraTestPaths (extendRoots buildroot false extraSourcePaths ([], testBases))

/-- `extend` appends one source set per root, without a `path`, and adds the roots to
`SourceSet.TEST_BASES` for test roots. -/
theorem extendRoots_eq (buildroot : List Char) (isTest : Bool) (roots : List (List Char))
    (acc : List SourceSet × List (List Char)) :
    extendRoots buildroot isTest roots acc =
      (acc.1 ++ roots.map (fun root => ⟨buildroot, root, none, isTest, []⟩),
        if isTest then setUpdate roots acc.2 else acc.2) := by
  induction roots generalizing acc with
  | nil => cases isTest <;> simp [extendRoots, setUpdate]
  | cons root roots ih =>
    simp only [extendRoots, List.foldl_cons] at ih ⊢
    rw [ih]
    cases isTest <;> simp [SourceSet.new, setUpdate]

/-- The extra roots have no `path` and no excludes. -/
theorem mem_extraSourceSets {buildroot : List Char}
    {extraSourcePaths extraTestPaths testBases : List (List Char)} {ss : SourceSet}
    (h : ss ∈ (extraSourceSets buildroot extraSourcePaths extraTestPaths testBases).1) :
    ss.path = none ∧ ss.excludes = [] := by
  simp only [extraSourceSets, extendRoots_eq, List.nil_append, List.mem_append, List.mem_map] at h
  rcases h with ⟨_, _, rfl⟩ | ⟨_, _, rfl⟩ <;> exact ⟨rfl, rfl⟩

/-- `configure_jvm(extra_source_paths, extra_test_paths)`: the configured project, the returned
targets and `SourceSet.TEST_BASES`; `none` when an `unexcludable_paths` loop does not stop. -/
def configureJvm [Fintype τ] (o : SetOrders τ) (env : Env) (g : BuildGraph τ β) (p : Project τ)
    (testBases : List (List Char)) (extraSourcePaths extraTestPaths : List (List Char)) :
    Option (Project τ × List τ × List (List Char)) := do
  let st := p.analyze o g (.init p testBases)
  let unexcludable ← unexcludablePaths p.rootDir st.project.sources
  let sources ← st.project.sources.mapM
    (SourceSet.addExcludes o.paths env p.rootDir st.targeted unexcludable)
  let (extras, testBases) := extraSourceSets env.buildroot extraSourcePaths extraTestPaths
    st.testBases
  pure ({ st.project with sources := sources ++ extras }, projectTargets g p st.analyzed, testBases)

/-- What a run of `configure_jvm` that completes returns: its walks' state, the unexcludable
strings, each source set with its excludes, then the extra roots. -/
theorem configureJvm_eq_some [Fintype τ] {o : SetOrders τ} {env : Env} {g : BuildGraph τ β}
    {p : Project τ} {testBases extraSourcePaths extraTestPaths : List (List Char)}
    {res : Project τ × List τ × List (List Char)}
    (h : p.configureJvm o env g testBases extraSourcePaths extraTestPaths = some res) :
    let st := p.analyze o g (.init p testBases)
    let extras := extraSourceSets env.buildroot extraSourcePaths extraTestPaths st.testBases
    ∃ unexcludable sources, unexcludablePaths p.rootDir st.project.sources = some unexcludable ∧
      List.Forall₂ (fun ss ss' =>
        ss.addExcludes o.paths env p.rootDir st.targeted unexcludable = some ss')
        st.project.sources sources ∧
      res = ({ st.project with sources := sources ++ extras.1 }, projectTargets g p st.analyzed,
        extras.2) := by
  simp only [configureJvm, Option.bind_eq_bind, Option.bind_eq_some, pure,
    Option.some.injEq] at h
  obtain ⟨unexcludable, hu, sources, hs, rfl⟩ := h
  exact ⟨unexcludable, sources, hu, List.forall₂_of_mapM_eq_some hs, rfl⟩

end Project
end PantsIde
