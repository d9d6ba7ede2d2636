import PantsIde.Materialize
import PantsIde.Aggregate
import PantsIde.SourceSets

/-! # `IdeGen.execute`

`execute(targets)` hands the tool classpaths to the project, then stages the jars:
`map_internal_jars(targets)`, then `map_external_jars()` over the entries
`list_jar_dependencies(binary)` resolves. `generate_project` is left to the subclasses. Nothing
is rolled back; `execute_project` says what a run, completed or raised, does to the project.

* `execute_outside`: when every file is staged under a file name, whether the run completes or
  raises, `execute` changes no file outside the five staging directories of the work directory.
  A jar name with `..` writes outside them.
* `execute_staged_fresh`: a completed run leaves in the staging directories only the files it
  copied there, and `execute_disk_congr`: what they held before does not change its result.
* `init_execute_internalJars`: over the whole task, `__init__` then `execute` over the compile
  set, the IDE gets internal jars only of targets `configure_compile_context` compiles. -/

namespace PantsIde
open PosixPath Relation

variable {τ α : Type}

namespace IdeGen

/-- `scalac_bootstrap_key`: `'scalac'`, registered by `__init__` unless Scala is skipped. -/
def scalacBootstrapKey (opts : IdeGenOptions) : Option (List Char) :=
  if opts.skipScala then none else some "scalac".toList

/-- `execute(targets)` up to `generate_project`, with `cwd` for `os.getcwd()`.
`checkstyleEnabled` is `len(Phase.goals_of_type(Checkstyle)) > 0`, `bootstrap key` is
`get_jvm_tool_classpath(key)`, and `entries` is `list_jar_dependencies(self.binary, confs)`. -/
def execute (opts : IdeGenOptions) (cwd : List Char) (checkstyleEnabled : Bool)
    (bootstrap : List Char → List (List Char)) (jars sourceJars : τ → Mapping) (targets : List τ)
    (entries : List JarEntry) : Step τ α Unit := fun s =>
  let checkstyleClasspath := if checkstyleEnabled then bootstrap "checkstyle".toList else []
  let scalacClasspath := match scalacBootstrapKey opts with
    | some key => bootstrap key
    | none => []
  mapJars cwd opts.workDir jars sourceJars targets entries
    { s with project := s.project.setToolClasspaths checkstyleClasspath scalacClasspath }

/-- `execute` sets the checkstyle classpath when a `Checkstyle` goal is present and the scalac
classpath unless Scala is skipped, then stages the jars. -/
theorem execute_eq (opts : IdeGenOptions) (cwd : List Char) (checkstyleEnabled : Bool)
    (bootstrap : List Char → List (List Char)) (jars sourceJars : τ → Mapping) (targets : List τ)
    (entries : List JarEntry) (s : Staging τ α) :
    execute opts cwd checkstyleEnabled bootstrap jars sourceJars targets entries s =
      mapJars cwd opts.workDir jars sourceJars targets entries { s with
        project := s.project.setToolClasspaths
          (if checkstyleEnabled then bootstrap "checkstyle".toList else [])
          (if opts.skipScala then [] else bootstrap "scalac".toList) } := by
  unfold execute scalacBootstrapKey
  cases opts.skipScala <;> rfl

end IdeGen

/-! ## What `execute` leaves alone

Fix a file `p` outside the staging directories of the work directory `W`, and the content `d`
it has. A copy under a file name into a staging directory writes below it, and every cleaning
removes only what is below a staging directory; so `p` keeps `d`, on every path through the
loops. -/

section Outside
variable {cwd W n : List Char} {p : List (List Char)} {d : Option α}

theorem copy_keeps {src dst : List Char} (h : resolve cwd dst ≠ p) {s : Staging τ α}
    (hs : s.disk p = d) : (copy cwd src dst s).state.disk p = d := by
  unfold copy
  split
  · split
    · exact hs
    · show Function.update s.disk (resolve cwd dst) _ p = d
      rwa [Function.update_noteq (Ne.symm h)]
  · exact hs

theorem bind_keeps {β γ : Type} {r : Outcome (StagingError τ) (Staging τ α) β}
    {g : β → Step τ α γ} (hr : r.state.disk p = d)
    (hg : ∀ b s, s.disk p = d → (g b s).state.disk p = d) : (r.bind g).state.disk p = d :=
  Outcome.bind_holds (fun s : Staging τ α => s.disk p = d) hr hg

theorem forLoop_keeps {β ξ : Type} {f : ξ → β → Step τ α β} {xs : List ξ}
    (hf : ∀ x ∈ xs, ∀ b s, s.disk p = d → (f x b s).state.disk p = d) (b : β)
    {s : Staging τ α} (hs : s.disk p = d) : (Outcome.forLoop f xs b s).state.disk p = d :=
  Outcome.forLoop_holds (fun s : Staging τ α => s.disk p = d) hf b s hs

variable (hp : ¬Staged cwd W p)
include hp

/-- A copy to `W/n/name`, for a staging name `n` and a file name `name`. -/
theorem copy_staged_keeps (hn : n ∈ internalNames ++ externalNames) {name : List Char}
    (hname : IsName name) (src : List Char) {s : Staging τ α} (hs : s.disk p = d) :
    (copy cwd src (join (join W n) name) s).state.disk p = d :=
  copy_keeps (fun he => hp ⟨n, hn, by rw [← he]; exact below_join_name hname⟩) hs

theorem stageSourceJar_keeps {target : τ} {item : List Char × List (List Char)}
    (hnames : ∀ j ∈ item.2, IsName j) {b : Option (List Char)} {s : Staging τ α}
    (hs : s.disk p = d) :
    (stageSourceJar cwd (join W "internal-libsources".toList) target item b s).state.disk p =
      d := by
  unfold stageSourceJar
  split
  · rename_i jar hjar
    exact bind_keeps (copy_staged_keeps hp (by decide) (hnames jar (by simp [hjar])) _ hs)
      fun _ _ h => h
  · exact hs

theorem stageJar_keeps {m : Mapping} {target : τ} {item : List Char × List (List Char)}
    (hjars : ∀ jar ∈ item.2, IsName jar) (hsources : ∀ i ∈ m.items, ∀ j ∈ i.2, IsName j)
    {s : Staging τ α} (hs : s.disk p = d) :
    (stageJar cwd (join W "internal-libs".toList) (join W "internal-libsources".toList) m target
      item () s).state.disk p = d := by
  unfold stageJar
  split
  · rename_i jar hjar
    refine bind_keeps (copy_staged_keeps hp (by decide) (hjars jar (by simp [hjar])) _ hs)
      fun _ _ h => ?_
    exact bind_keeps (forLoop_keeps (fun i hi _ _ h => stageSourceJar_keeps hp (hsources i hi) h)
      _ h) fun _ _ h => h
  · exact hs

theorem mapInternalJars_keeps {jars sourceJars : τ → Mapping} {targets : List τ}
    (hnames : ∀ x ∈ jarItems jars targets, (∀ jar ∈ x.2.2, IsName jar) ∧
      ∀ item ∈ (sourceJars x.1).items, ∀ j ∈ item.2, IsName j)
    {s : Staging τ α} (hs : s.disk p = d) :
    (mapInternalJars cwd W jars sourceJars targets s).state.disk p = d := by
  rw [mapInternalJars_eq]
  refine forLoop_keeps (fun x hx _ _ h => stageJar_keeps hp (hnames x hx).1 (hnames x hx).2 h)
    _ ?_
  rwa [cleanInternal_disk fun n hn hb => hp ⟨n, List.mem_append_left _ hn, hb⟩]

theorem stageExtra_keeps (hn : n ∈ internalNames ++ externalNames) {path : Option (List Char)}
    (hname : ∀ q, present path = some q → IsName (basename q)) {s : Staging τ α}
    (hs : s.disk p = d) : (stageExtra cwd (join W n) path s).state.disk p = d := by
  unfold stageExtra
  split
  · rename_i q hq
    exact bind_keeps (copy_staged_keeps hp hn (hname q hq) _ hs) fun _ _ h => h
  · exact hs

theorem stageExternalJar_keeps {entry : JarEntry}
    (hnames : ∀ q ∈ [entry.default, entry.sources, entry.javadoc].filterMap present,
      IsName (basename q))
    {s : Staging τ α} (hs : s.disk p = d) :
    (stageExternalJar cwd (join W "external-libs".toList) (join W "external-libsources".toList)
      (join W "external-libjavadoc".toList) entry () s).state.disk p = d := by
  unfold stageExternalJar
  split
  · rename_i jar hjar
    refine bind_keeps (copy_staged_keeps hp (by decide)
      (hnames jar (List.mem_filterMap.2 ⟨_, .head _, hjar⟩)) _ hs) fun _ _ h => ?_
    refine bind_keeps (stageExtra_keeps hp (by decide)
      (fun q hq => hnames q (List.mem_filterMap.2 ⟨_, .tail _ (.head _), hq⟩)) h) fun _ _ h => ?_
    exact bind_keeps (stageExtra_keeps hp (by decide)
      (fun q hq => hnames q (List.mem_filterMap.2 ⟨_, .tail _ (.tail _ (.head _)), hq⟩)) h)
      fun _ _ h => h
  · exact hs

theorem mapExternalJars_keeps {entries : List JarEntry}
    (hnames : ∀ en ∈ entries, ∀ q ∈ [en.default, en.sources, en.javadoc].filterMap present,
      IsName (basename q))
    {s : Staging τ α} (hs : s.disk p = d) :
    (mapExternalJars cwd W entries s).state.disk p = d := by
  refine forLoop_keeps (fun en hen _ _ h => stageExternalJar_keeps hp (hnames en hen) h) _ ?_
  show (cleanExternal cwd W s).disk p = d
  rwa [cleanExternal_disk fun n hn hb => hp ⟨n, List.mem_append_right _ hn, hb⟩]

end Outside

/-! ## What `execute` does to the project

Nothing is rolled back: a run that raises leaves in the project the entries of the items the
loops got through, the entries of the first items of the `jars` mappings and of the first
resolved entries. -/

section Project
variable {s s' : Staging τ α} {e : StagingError τ}

theorem stageExtra_raised_project {cwd D : List Char} {path : Option (List Char)}
    (h : stageExtra cwd D path s = .raised e s') : s'.project = s.project := by
  unfold stageExtra at h
  split at h
  · rcases Outcome.bind_eq_raised.1 h with hc | ⟨_, _, _, h⟩
    · rw [(copy_eq_raised hc).1]
    · cases h
  · cases h

theorem stageExternalJar_raised_project {cwd E ES EJ : List Char} {en : JarEntry}
    (h : stageExternalJar cwd E ES EJ en () s = .raised e s') : s'.project = s.project := by
  unfold stageExternalJar at h
  split at h
  · rcases Outcome.bind_eq_raised.1 h with hc | ⟨_, s₁, hc, h⟩
    · rw [(copy_eq_raised hc).1]
    obtain ⟨a, -, -, rfl⟩ := copy_eq_ok hc
    rcases Outcome.bind_eq_raised.1 h with h₁ | ⟨_, s₂, h₁, h⟩
    · exact (stageExtra_raised_project h₁).trans rfl
    rcases Outcome.bind_eq_raised.1 h with h₂ | ⟨_, _, _, h⟩
    · rw [stageExtra_raised_project h₂, (stageExtra_eq_ok h₁).2.1]
    · cases h
  · cases h

/-- Every run of `map_internal_jars`, completed or raised, adds to `project.internal_jars` the
entries of the first items of the `jars` mappings, of all of them when it completes, and
changes nothing else of the project. -/
theorem mapInternalJars_project (cwd W : List Char) (jars sourceJars : τ → Mapping)
    (targets : List τ) (s : Staging τ α) :
    ∃ items staged, items <+: jarItems jars targets ∧
      ((mapInternalJars cwd W jars sourceJars targets s).error? = none →
        items = jarItems jars targets) ∧
      List.Forall₂ (fun x e => ∃ jar, x.2.2 = [jar] ∧ e = internalEntry W sourceJars x jar)
        items staged ∧
      (mapInternalJars cwd W jars sourceJars targets s).state.project =
        { s.project with internalJars := s.project.internalJars ++ staged } := by
  cases h : mapInternalJars cwd W jars sourceJars targets s with
  | ok u s' =>
    rw [mapInternalJars_eq] at h
    obtain ⟨-, -, staged, hp, hfa, -⟩ := forLoop_stageJar_ok h
    exact ⟨_, staged, List.prefix_refl _, fun _ => rfl, hfa, hp⟩
  | raised e s' =>
    rw [mapInternalJars_eq] at h
    obtain ⟨pre, x, rest, _, s₁, hxs, hpre, hx⟩ := Outcome.forLoop_eq_raised h
    obtain ⟨-, -, staged, hp, hfa, -⟩ := forLoop_stageJar_ok hpre
    exact ⟨pre, staged, hxs ▸ List.prefix_append _ _, (fun h => by cases h), hfa,
      (stageJar_eq_raised hx).2.1.trans hp⟩

/-- Every run of `map_external_jars`, completed or raised, adds to `project.external_jars` the
entries of the first resolved entries, of all of them when it completes, and changes nothing
else of the project. -/
theorem mapExternalJars_project (cwd W : List Char) (entries : List JarEntry) (s : Staging τ α) :
    ∃ done, done <+: entries ∧ ((mapExternalJars cwd W entries s).error? = none → done = entries) ∧
      (mapExternalJars cwd W entries s).state.project = { s.project with
        externalJars := s.project.externalJars ++
          done.filterMap fun en => (present en.default).map (externalEntry W en) } := by
  cases h : mapExternalJars cwd W entries s with
  | ok u s' =>
    rw [mapExternalJars_eq] at h
    have hp := forLoop_stageExternalJar_project h
    exact ⟨entries, List.prefix_refl _, fun _ => rfl, hp⟩
  | raised e s' =>
    rw [mapExternalJars_eq] at h
    obtain ⟨pre, en, rest, _, s₁, rfl, hpre, hen⟩ := Outcome.forLoop_eq_raised h
    have hp := forLoop_stageExternalJar_project hpre
    exact ⟨pre, List.prefix_append _ _, (fun h => by cases h),
      (stageExternalJar_raised_project hen).trans hp⟩

/-- `map_internal_jars` then `map_external_jars`: when the first raises, the second never runs
and no external entry is added. -/
theorem mapJars_project (cwd W : List Char) (jars sourceJars : τ → Mapping) (targets : List τ)
    (entries : List JarEntry) (s : Staging τ α) :
    ∃ items staged done, items <+: jarItems jars targets ∧ done <+: entries ∧
      ((mapJars cwd W jars sourceJars targets entries s).error? = none →
        items = jarItems jars targets ∧ done = entries) ∧
      List.Forall₂ (fun x e => ∃ jar, x.2.2 = [jar] ∧ e = internalEntry W sourceJars x jar)
        items staged ∧
      (mapJars cwd W jars sourceJars targets entries s).state.project = { s.project with
        internalJars := s.project.internalJars ++ staged,
        externalJars := s.project.externalJars ++
          done.filterMap fun en => (present en.default).map (externalEntry W en) } := by
  obtain ⟨items, staged, hi, hok, hfa, hp⟩ := mapInternalJars_project cwd W jars sourceJars targets s
  unfold mapJars
  revert hok hp
  cases mapInternalJars cwd W jars sourceJars targets s with
  | raised e s₁ =>
    intro _ hp
    refine ⟨items, staged, [], hi, List.nil_prefix, (fun h => by cases h), hfa, ?_⟩
    rw [List.filterMap_nil, List.append_nil]
    exact hp
  | ok u s₁ =>
    intro hok hp
    obtain ⟨done, hd, hokd, hpd⟩ := mapExternalJars_project cwd W entries s₁
    refine ⟨items, staged, done, hi, hd, fun he => ⟨hok rfl, hokd he⟩, hfa, ?_⟩
    change s₁.project = _ at hp
    change (mapExternalJars cwd W entries s₁).state.project = _
    rw [hpd, hp]

end Project

namespace IdeGen

/-- `execute` changes no file outside the five staging directories of the work directory when
every file is staged under a file name: whether it completes or raises, every other file keeps
its content. -/
theorem execute_outside (opts : IdeGenOptions) (cwd : List Char) (checkstyleEnabled : Bool)
    (bootstrap : List Char → List (List Char)) (jars sourceJars : τ → Mapping) (targets : List τ)
    (entries : List JarEntry) (st : Staging τ α)
    (hnames : FileNames jars sourceJars targets entries) {p : List (List Char)}
    (hp : ¬Staged cwd opts.workDir p) :
    (execute opts cwd checkstyleEnabled bootstrap jars sourceJars targets entries st).state.disk p =
      st.disk p :=
  bind_keeps (mapInternalJars_keeps hp hnames.1 rfl) fun _ _ h => mapExternalJars_keeps hp hnames.2 h

/-- The artifact `/b1/a.jar` of `clashStaging` lies outside the staging directories of `/w`,
and keeps its content through a run over both targets and the external entry. -/
theorem clash_execute_outside : FileNames clashJars oneSourceJar [0, 1] externalJarEntries ∧
    ¬Staged "/".toList intransitiveOptions.workDir ["b1".toList, "a.jar".toList] ∧
    (execute intransitiveOptions "/".toList true (fun _ => []) clashJars oneSourceJar [0, 1]
      externalJarEntries clashStaging).state.disk ["b1".toList, "a.jar".toList] = some 1 :=
  have hnames : FileNames clashJars oneSourceJar [0, 1] externalJarEntries := by
    unfold FileNames; decide
  ⟨hnames, by decide, execute_outside intransitiveOptions "/".toList true (fun _ => []) clashJars
    oneSourceJar [0, 1] externalJarEntries clashStaging hnames (by decide)⟩

/-- A jar mapped under the base `/m` with the name `../m/e.jar`. -/
def escapeJars (_ : Fin 2) : Mapping := ⟨[("/m".toList, ["../m/e.jar".toList])], by decide⟩

/-- Without file names a run writes outside the staging directories: the jar name `../m/e.jar`
puts `/m/e.jar` at `/w/m/e.jar`. -/
example : ¬Staged "/".toList intransitiveOptions.workDir ["w".toList, "m".toList, "e.jar".toList] ∧
    clashStaging.disk ["w".toList, "m".toList, "e.jar".toList] = none ∧
    (execute intransitiveOptions "/".toList true (fun _ => []) escapeJars noSourceJars [0] []
      clashStaging).state.disk ["w".toList, "m".toList, "e.jar".toList] = some 4 := by
  decide

/-- Every run of `execute`, completed or raised, sets the tool classpaths, adds to
`internal_jars` the entries of the first items of the `jars` mappings of `targets` and to
`external_jars` the entries of the first resolved entries, of all of them when it completes, and
changes nothing else of the project: its source sets, Python source sets, flags and resource
extensions stay as `configure_project` left them. -/
theorem execute_project (opts : IdeGenOptions) (cwd : List Char) (checkstyleEnabled : Bool)
    (bootstrap : List Char → List (List Char)) (jars sourceJars : τ → Mapping) (targets : List τ)
    (entries : List JarEntry) (st : Staging τ α) :
    ∃ items staged done, items <+: jarItems jars targets ∧ done <+: entries ∧
      ((execute opts cwd checkstyleEnabled bootstrap jars sourceJars targets entries st).error? =
        none → items = jarItems jars targets ∧ done = entries) ∧
      List.Forall₂
        (fun x e => ∃ jar, x.2.2 = [jar] ∧ e = internalEntry opts.workDir sourceJars x jar)
        items staged ∧
      (execute opts cwd checkstyleEnabled bootstrap jars sourceJars targets entries
        st).state.project =
        { st.project with
          checkstyleClasspath := if checkstyleEnabled then bootstrap "checkstyle".toList else [],
          scalaCompilerClasspath := if opts.skipScala then [] else bootstrap "scalac".toList,
          internalJars := st.project.internalJars ++ staged,
          externalJars := st.project.externalJars ++ done.filterMap fun en =>
            (present en.default).map (externalEntry opts.workDir en) } := by
  rw [execute_eq]
  exact mapJars_project _ _ _ _ _ _ _

/-- A run of `execute` that completes leaves in the staging directories only what it copied
there: every file below one of them is the destination of a copy of the run, so no jar of an
earlier run survives (`safe_mkdir(..., clean=True)`). -/
theorem execute_staged_fresh {opts : IdeGenOptions} {cwd : List Char} {checkstyleEnabled : Bool}
    {bootstrap : List Char → List (List Char)} {jars sourceJars : τ → Mapping} {targets : List τ}
    {entries : List JarEntry} {st s : Staging τ α} {p : List (List Char)}
    (h : execute opts cwd checkstyleEnabled bootstrap jars sourceJars targets entries st =
      .ok () s)
    (hp : Staged cwd opts.workDir p) (hs : (s.disk p).isSome) :
    ∃ c ∈ mapJarsCopies opts.workDir jars sourceJars targets entries, resolve cwd c.1 = p := by
  rw [execute_eq] at h
  obtain ⟨_, s₁, h₁, h₂⟩ := Outcome.bind_eq_ok.1 h
  by_contra hno
  simp only [mapJarsCopies, List.mem_append, not_exists, not_and] at hno
  rw [mapExternalJars_disk h₂, replay_of_not_mem fun c hc => hno c (.inr hc)] at hs
  obtain ⟨hext, hs₁⟩ := cleanExternal_isSome hs
  rw [mapInternalJars_disk h₁, replay_of_not_mem fun c hc => hno c (.inl hc)] at hs₁
  obtain ⟨n, hn, hb⟩ := hp
  rcases List.mem_append.1 hn with hn | hn
  exacts [(cleanInternal_isSome hs₁).1 n hn hb, hext n hn hb]

/-- A completed run over the targets of `clashJars` leaves `a.jar` of target `1` in
`internal-libs`, copied there by the run. -/
theorem clash_execute_staged_fresh : ∃ s,
    execute intransitiveOptions "/".toList true (fun _ => []) clashJars noSourceJars [0, 1] []
      clashStaging = .ok () s ∧
    Staged "/".toList intransitiveOptions.workDir
      ["w".toList, "internal-libs".toList, "a.jar".toList] ∧
    (s.disk ["w".toList, "internal-libs".toList, "a.jar".toList]).isSome ∧
    ∃ c ∈ mapJarsCopies intransitiveOptions.workDir clashJars noSourceJars [0, 1] [],
      resolve "/".toList c.1 = ["w".toList, "internal-libs".toList, "a.jar".toList] := by
  have h := Outcome.eq_ok_of_error?_eq_none (by decide : (execute intransitiveOptions "/".toList
    true (fun _ => []) clashJars noSourceJars [0, 1] [] clashStaging).error? = none)
  have hs : ((execute intransitiveOptions "/".toList true (fun _ => []) clashJars noSourceJars
      [0, 1] [] clashStaging).state.disk
        ["w".toList, "internal-libs".toList, "a.jar".toList]).isSome := by
    decide
  exact ⟨_, h, by decide, hs, execute_staged_fresh h (by decide) hs⟩

/-- Off the external directories, two disks that agree outside the staging directories agree
once the internal ones are cleaned. -/
theorem cleanInternal_agree {cwd W : List Char} {k : List (List Char)} {s₁ s₂ : Staging τ α}
    (hagree : ∀ p, ¬Staged cwd W p → s₁.disk p = s₂.disk p)
    (hk : ∀ n ∈ externalNames, ¬Below (resolve cwd (join W n)) k) :
    (cleanInternal cwd W s₁).disk k = (cleanInternal cwd W s₂).disk k := by
  by_cases hint : ∃ n ∈ internalNames, Below (resolve cwd (join W n)) k
  · obtain ⟨n, hn, hb⟩ := hint
    rw [cleanInternal_eq_none hn hb, cleanInternal_eq_none hn hb]
  push_neg at hint
  rw [cleanInternal_disk hint, cleanInternal_disk hint]
  refine hagree k fun ⟨n, hn, hb⟩ => ?_
  rcases List.mem_append.1 hn with hn | hn
  exacts [hint n hn hb, hk n hn hb]

/-- `clashStaging` with jars of an earlier run left in `internal-libs` and `external-libs`. -/
def staleStaging : Staging (Fin 2) Nat :=
  ⟨fun p => if p = ["w".toList, "internal-libs".toList, "old.jar".toList] ∨
      p = ["w".toList, "external-libs".toList, "old.jar".toList] then some 0
    else clashStaging.disk p, clashStaging.project⟩

/-- What the staging directories held before a run does not matter: when the artifacts
`map_internal_jars` copies lie outside the staging directories, two completed runs of `execute`
from disks that agree outside the staging directories leave the same disk. -/
theorem execute_disk_congr {opts : IdeGenOptions} {cwd : List Char} {checkstyleEnabled : Bool}
    {bootstrap : List Char → List (List Char)} {jars sourceJars : τ → Mapping} {targets : List τ}
    {entries : List JarEntry} {st₁ st₂ s₁ s₂ : Staging τ α}
    (hout : ∀ c ∈ internalCopies opts.workDir jars sourceJars targets,
      ¬Staged cwd opts.workDir (resolve cwd c.2))
    (hagree : ∀ p, ¬Staged cwd opts.workDir p → st₁.disk p = st₂.disk p)
    (h₁ : execute opts cwd checkstyleEnabled bootstrap jars sourceJars targets entries st₁ =
      .ok () s₁)
    (h₂ : execute opts cwd checkstyleEnabled bootstrap jars sourceJars targets entries st₂ =
      .ok () s₂) :
    s₁.disk = s₂.disk := by
  rw [execute_eq] at h₁ h₂
  obtain ⟨_, m₁, hi₁, he₁⟩ := Outcome.bind_eq_ok.1 h₁
  obtain ⟨_, m₂, hi₂, he₂⟩ := Outcome.bind_eq_ok.1 h₂
  rw [mapExternalJars_disk he₁, mapExternalJars_disk he₂]
  refine congrArg (replay cwd _) (funext fun p => ?_)
  by_cases hext : ∃ n ∈ externalNames, Below (resolve cwd (join opts.workDir n)) p
  · obtain ⟨n, hn, hb⟩ := hext
    rw [cleanExternal_eq_none hn hb, cleanExternal_eq_none hn hb]
  push_neg at hext
  rw [cleanExternal_disk hext, cleanExternal_disk hext, mapInternalJars_disk hi₁,
    mapInternalJars_disk hi₂]
  exact replay_agree (fun k => ∀ n ∈ externalNames, ¬Below (resolve cwd (join opts.workDir n)) k)
    (fun k hk => cleanInternal_agree hagree hk)
    (fun c hc n hn hb => hout c hc ⟨n, List.mem_append_right _ hn, hb⟩) hext

/-- A run from `staleStaging` ends with the disk of a run from `clashStaging`. -/
theorem stale_execute_disk_congr :
    (∀ c ∈ internalCopies intransitiveOptions.workDir clashJars noSourceJars [0, 1],
      ¬Staged "/".toList intransitiveOptions.workDir (resolve "/".toList c.2)) ∧
    (∀ p, ¬Staged "/".toList intransitiveOptions.workDir p →
      staleStaging.disk p = clashStaging.disk p) ∧
    ∃ s₁ s₂, execute intransitiveOptions "/".toList true (fun _ => []) clashJars noSourceJars
        [0, 1] [] staleStaging = .ok () s₁ ∧
      execute intransitiveOptions "/".toList true (fun _ => []) clashJars noSourceJars [0, 1] []
        clashStaging = .ok () s₂ ∧ s₁.disk = s₂.disk := by
  have hout : ∀ c ∈ internalCopies intransitiveOptions.workDir clashJars noSourceJars [0, 1],
      ¬Staged "/".toList intransitiveOptions.workDir (resolve "/".toList c.2) := by
    decide
  have hagree : ∀ p, ¬Staged "/".toList intransitiveOptions.workDir p →
      staleStaging.disk p = clashStaging.disk p := fun p hp =>
    if_neg (by rintro (rfl | rfl) <;> exact hp (by decide))
  have h₁ := Outcome.eq_ok_of_error?_eq_none (by decide : (execute intransitiveOptions "/".toList
    true (fun _ => []) clashJars noSourceJars [0, 1] [] staleStaging).error? = none)
  have h₂ := Outcome.eq_ok_of_error?_eq_none (by decide : (execute intransitiveOptions "/".toList
    true (fun _ => []) clashJars noSourceJars [0, 1] [] clashStaging).error? = none)
  exact ⟨hout, hagree, _, _, h₁, h₂, execute_disk_congr hout hagree h₁ h₂⟩

/-! ## The task

Pants constructs the task, which runs `__init__`, and then runs `execute` over the targets of
the context, which `configure_compile_context` replaced with the compile set and the
external-jars binary; the binary is not compiled, so it has no `jars` product. -/

variable [DecidableEq τ] [Fintype τ] {β : Type}

/-- After `IdeGen.__init__` and a run of `execute` over the compile set, completed or raised,
every entry added to `internal_jars` is the staged jar of a target of the compile set: a target
a walk reaches from a JVM target that `is_cp` selects among those the expansion of the project
reaches. -/
theorem init_execute_internalJars {opts : IdeGenOptions} {o : SetOrders τ} {env : Env}
    {g : BuildGraph τ β} {roots : List τ} {testBases testBases' : List (List Char)}
    {project : Project τ} {compiles : List τ} {binary : JvmBinary}
    (h : init opts o env g roots testBases = some (project, testBases', compiles, binary))
    (cwd : List Char) (checkstyleEnabled : Bool) (bootstrap : List Char → List (List Char))
    (jars sourceJars : τ → Mapping) (entries : List JarEntry)
    (disk : List (List Char) → Option α) :
    ∃ staged, (execute opts cwd checkstyleEnabled bootstrap jars sourceJars compiles entries
        ⟨disk, project⟩).state.project.internalJars = project.internalJars ++ staged ∧
      ∀ e ∈ staged, ∃ u, (∃ x, Project.Expanded g project x ∧ ∃ t,
        ReflTransGen (DependsOn g) x t ∧ (g.get t).isJvm ∧ isCp opts roots g t ∧
          ReflTransGen (DependsOn g) t u) ∧
        ∃ base jar, (base, [jar]) ∈ (jars u).items ∧
          e = internalEntry opts.workDir sourceJars (u, base, [jar]) jar := by
  obtain ⟨targets, -, hmem, hcc⟩ := init_eq_some h
  obtain ⟨rfl, -⟩ := Prod.ext_iff.1 hcc
  rw [execute_eq]
  obtain ⟨items, staged, _, hitems, -, -, hfa, hp⟩ := mapJars_project cwd opts.workDir jars
    sourceJars (configureCompileContext opts roots g targets).1 entries
    ⟨disk, project.setToolClasspaths
      (if checkstyleEnabled then bootstrap "checkstyle".toList else [])
      (if opts.skipScala then [] else bootstrap "scalac".toList)⟩
  refine ⟨staged, congrArg Project.internalJars hp, fun e he => ?_⟩
  obtain ⟨⟨u, base, jars'⟩, hx, jar, hjar, rfl⟩ := forall₂_exists_of_mem_right hfa e he
  obtain rfl : jars' = [jar] := hjar
  obtain ⟨u', hu, item, hitem, hx⟩ : ∃ u' ∈ (configureCompileContext opts roots g targets).1,
      ∃ item ∈ (jars u').items, (u', item) = (u, base, [jar]) := by
    simpa only [jarItems, List.mem_flatMap, List.mem_map] using hitems.subset hx
  cases hx
  obtain ⟨x, hxt, hreach⟩ := (mem_configureCompileContext_compiles opts roots g targets u).1 hu
  exact ⟨u, ⟨x, (hmem x).1 hxt, hreach⟩, base, jar, hitem, rfl⟩

/-- Under `--intransitive` over the root `0` of `layeredGraph`, the compile set is `[1]`; a run
staging the jars of `clashJars` adds only entries of targets of the compile set. -/
theorem layered_init_execute_internalJars : ∃ project testBases' compiles binary,
    init intransitiveOptions dedupOrders layeredEnv layeredGraph [0] [] =
      some (project, testBases', compiles, binary) ∧
    ∃ staged, (execute intransitiveOptions "/".toList true (fun _ => []) clashJars oneSourceJar
        compiles [] ⟨clashStaging.disk, project⟩).state.project.internalJars =
        project.internalJars ++ staged ∧
      ∀ e ∈ staged, ∃ u, (∃ x, Project.Expanded layeredGraph project x ∧ ∃ t,
        ReflTransGen (DependsOn layeredGraph) x t ∧ (layeredGraph.get t).isJvm ∧
          isCp intransitiveOptions [0] layeredGraph t ∧ ReflTransGen (DependsOn layeredGraph) t u) ∧
        ∃ base jar, (base, [jar]) ∈ (clashJars u).items ∧
          e = internalEntry intransitiveOptions.workDir oneSourceJar (u, base, [jar]) jar := by
  obtain ⟨⟨project, testBases', compiles, binary⟩, h⟩ := Option.isSome_iff_exists.1
    (by decide : (init intransitiveOptions dedupOrders layeredEnv layeredGraph [0] []).isSome)
  exact ⟨project, testBases', compiles, binary, h,
    init_execute_internalJars h "/".toList true (fun _ => []) clashJars oneSourceJar []
      clashStaging.disk⟩

end IdeGen
end PantsIde
