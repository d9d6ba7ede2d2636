import PantsIde.Project

/-! # What the walks of `configure_jvm` build

`Project.analyze` runs `configure_target` on every target its walks reach. This module says
once what each of the closures does (`registerPath`, `configureSourceSets`,
`configureResourceBase`, `configureResources`, `registerTarget`, `configureTarget`) and derives
from it the invariant of the walks' state: the source sets are one per `targeted` directory
string, each built for a directory that an analyzed target declares (`JvmState.Owned`), and
every directory an analyzed target declares is `targeted` (`JvmState.Covers`). Both hold of the
state the walks of `configure_jvm` end in (`Project.analyze_owned`). -/

namespace PantsIde
open PosixPath

variable {τ β : Type}

/-- The fields of a project that `configure_jvm`'s closures read and never write. -/
def Project.settings (p : Project τ) : List Char × List τ × Bool × Bool × Bool :=
  (p.rootDir, p.targets, p.transitive, p.skipJava, p.skipScala)

/-- Target `t` declares a file in directory `path` below `base`: one of its sources, below its
`target_base`, or, when it has resources, a file of one of its resources groups, below the
group's `target_base`. These are the directories `configure_target` registers for `t`. -/
def DeclaresDir (g : BuildGraph τ β) (t : τ) (base path : List Char) : Prop :=
  (base = (g.get t).targetBase ∧ ∃ s ∈ (g.get t).sources, path = dirname s) ∨
  ((g.get t).hasResources = true ∧
    ∃ grp ∈ (g.get t).resources, base = grp.targetBase ∧ ∃ r ∈ grp.sources, path = dirname r)

namespace Project
variable [DecidableEq τ] {p q : Project τ} (g : BuildGraph τ β)

theorem sourceTarget_congr (h : p.settings = q.settings) : p.sourceTarget g = q.sourceTarget g := by
  simp only [settings, Prod.mk.injEq] at h
  funext t; simp only [sourceTarget, h]

theorem findSourceBasedirs_congr (h : p.settings = q.settings) :
    p.findSourceBasedirs g = q.findSourceBasedirs g := by
  have hroot : p.rootDir = q.rootDir := congrArg Prod.fst h
  funext t; simp only [findSourceBasedirs, sourceTarget_congr g h, hroot]

end Project

namespace JvmState
variable {g : BuildGraph τ β} {root base path x : List Char} {isTest : Bool} {st : JvmState τ}

theorem isSibling_congr [DecidableEq τ] {p q : Project τ} (h : p.settings = q.settings) (t : τ) :
    isSibling p g t = isSibling q g t := by
  funext c; simp only [isSibling, Project.sourceTarget_congr g h, Project.findSourceBasedirs_congr g h]

/-- The invariant of the walks' state, for a project rooted at `root`: the `targeted` strings
are the directory strings of the source sets, one source set each, and every source set was
built, with no excludes yet, for a directory an analyzed target declares. -/
structure Owned (g : BuildGraph τ β) (root : List Char) (st : JvmState τ) : Prop where
  rootDir : st.project.rootDir = root
  targeted : ∀ x, x ∈ st.targeted ↔ ∃ ss ∈ st.project.sources, ss.dirString root = some x
  nodup : (st.project.sources.map (SourceSet.dirString root)).Nodup
  sources : ∀ ss ∈ st.project.sources, ss.excludes = [] ∧
    ∃ t ∈ st.analyzed, ∃ path, ss.path = some path ∧ DeclaresDir g t ss.sourceBase path

/-- Every directory an analyzed target declares is `targeted`. -/
def Covers (g : BuildGraph τ β) (root : List Char) (st : JvmState τ) : Prop :=
  ∀ t ∈ st.analyzed, ∀ base path, DeclaresDir g t base path →
    join (join root base) path ∈ st.targeted

/-! ## `configure_source_sets` -/

@[simp] theorem registerPath_analyzed : (st.registerPath base isTest path).analyzed = st.analyzed := by
  simp only [registerPath]; split <;> rfl

@[simp] theorem registerPath_settings :
    (st.registerPath base isTest path).project.settings = st.project.settings := by
  simp only [registerPath]; split <;> rfl

@[simp] theorem registerPath_rootDir :
    (st.registerPath base isTest path).project.rootDir = st.project.rootDir :=
  congrArg Prod.fst registerPath_settings

theorem mem_registerPath_targeted : x ∈ (st.registerPath base isTest path).targeted ↔
    x ∈ st.targeted ∨ x = join (join st.project.rootDir base) path := by
  simp only [registerPath]
  split
  · exact ⟨.inl, by rintro (h | rfl) <;> assumption⟩
  · simp

theorem Owned.registerPath (h : st.Owned g root)
    (hd : ∃ t ∈ st.analyzed, DeclaresDir g t base path) :
    (st.registerPath base isTest path).Owned g root := by
  simp only [JvmState.registerPath]
  split
  · exact h
  · rename_i hnew
    rw [h.rootDir] at hnew ⊢
    refine ⟨rfl, fun y => ?_, ?_, ?_⟩
    · simp only [List.mem_append, List.mem_singleton, h.targeted, or_and_right, exists_or,
        exists_eq_left, SourceSet.new, SourceSet.dirString, Option.map_some', Option.some.injEq]
      exact or_congr Iff.rfl eq_comm
    · rw [List.map_append, List.nodup_append]
      refine ⟨h.nodup, List.nodup_singleton _, List.disjoint_singleton.2 fun hm => ?_⟩
      obtain ⟨ss, hss, hx⟩ := List.mem_map.1 hm
      exact hnew ((h.targeted _).2 ⟨ss, hss, hx⟩)
    · simp only [SourceSet.new, List.mem_append, List.mem_singleton]
      rintro ss (hss | rfl)
      · exact h.sources ss hss
      · exact ⟨rfl, hd.imp fun t ⟨ht, hdt⟩ => ⟨ht, path, rfl, hdt⟩⟩

section SourceSets
variable {o : IterOrder (List Char)} {sources : List (List Char)}

@[simp] theorem configureSourceSets_analyzed :
    (configureSourceSets o base sources isTest st).analyzed = st.analyzed := by
  unfold configureSourceSets
  generalize o.arrange _ = L
  induction L generalizing st <;> simp [*]

@[simp] theorem configureSourceSets_settings :
    (configureSourceSets o base sources isTest st).project.settings = st.project.settings := by
  unfold configureSourceSets
  generalize o.arrange _ = L
  induction L generalizing st <;> simp [*]

theorem mem_foldl_registerPath_targeted (L : List (List Char)) (st : JvmState τ) :
    x ∈ (L.foldl (registerPath base isTest) st).targeted ↔
      x ∈ st.targeted ∨ ∃ path ∈ L, x = join (join st.project.rootDir base) path := by
  induction L generalizing st with
  | nil => simp
  | cons path L ih =>
    simp only [List.foldl, ih, mem_registerPath_targeted, registerPath_rootDir, List.mem_cons,
      or_and_right, exists_or, exists_eq_left, or_assoc]

theorem Owned.foldl_registerPath {L : List (List Char)} (h : st.Owned g root)
    (hd : ∀ path ∈ L, ∃ t ∈ st.analyzed, DeclaresDir g t base path) :
    (L.foldl (JvmState.registerPath base isTest) st).Owned g root := by
  induction L generalizing st with
  | nil => exact h
  | cons path L ih =>
    exact ih (h.registerPath (hd path (.head _)))
      (by simpa using fun q hq => hd q (.tail _ hq))

theorem mem_configureSourceSets_targeted :
    x ∈ (configureSourceSets o base sources isTest st).targeted ↔
      x ∈ st.targeted ∨ ∃ s ∈ sources, x = join (join st.project.rootDir base) (dirname s) := by
  simp only [configureSourceSets, mem_foldl_registerPath_targeted, o.mem_arrange, List.mem_map,
    exists_exists_and_eq_and]

theorem Owned.configureSourceSets (h : st.Owned g root)
    (hd : ∀ s ∈ sources, ∃ t ∈ st.analyzed, DeclaresDir g t base (dirname s)) :
    (configureSourceSets o base sources isTest st).Owned g root :=
  h.foldl_registerPath fun path hp => by
    obtain ⟨s, hs, rfl⟩ := List.mem_map.1 ((o.mem_arrange _ _).1 hp)
    exact hd s hs

end SourceSets

/-! ## The resources of `configure_target` -/

section Resources
variable {o : IterOrder (List Char)} {groups : List Resources} {basedir : List Char}

@[simp] theorem configureResourceBase_analyzed :
    (configureResourceBase o groups st basedir).analyzed = st.analyzed := by
  simp [configureResourceBase]

@[simp] theorem configureResourceBase_settings :
    (configureResourceBase o groups st basedir).project.settings = st.project.settings := by
  simp only [configureResourceBase, configureSourceSets_settings]; rfl

@[simp] theorem configureResourceBase_rootDir :
    (configureResourceBase o groups st basedir).project.rootDir = st.project.rootDir :=
  congrArg Prod.fst configureResourceBase_settings

theorem mem_configureResourceBase_targeted :
    x ∈ (configureResourceBase o groups st basedir).targeted ↔ x ∈ st.targeted ∨
      ∃ grp ∈ groups, grp.targetBase = basedir ∧
        ∃ r ∈ grp.sources, x = join (join st.project.rootDir basedir) (dirname r) := by
  simp only [configureResourceBase, mem_configureSourceSets_targeted, List.mem_flatMap,
    List.mem_filter, decide_eq_true_eq]
  refine or_congr Iff.rfl ⟨?_, ?_⟩
  · rintro ⟨r, ⟨grp, ⟨hg, hb⟩, hr⟩, rfl⟩; exact ⟨grp, hg, hb, r, hr, rfl⟩
  · rintro ⟨grp, hg, hb, r, hr, rfl⟩; exact ⟨r, ⟨grp, ⟨hg, hb⟩, hr⟩, rfl⟩

theorem Owned.configureResourceBase (h : st.Owned g root)
    (hd : ∀ grp ∈ groups, ∀ r ∈ grp.sources, ∃ t ∈ st.analyzed,
      DeclaresDir g t grp.targetBase (dirname r)) :
    (configureResourceBase o groups st basedir).Owned g root := by
  unfold JvmState.configureResourceBase
  exact Owned.configureSourceSets ⟨h.1, h.2, h.3, h.4⟩ fun r hr => by
    obtain ⟨grp, hg, hr⟩ := List.mem_flatMap.1 hr
    obtain ⟨hg, hb⟩ := List.mem_filter.1 hg
    exact of_decide_eq_true hb ▸ hd grp hg r hr

@[simp] theorem configureResources_analyzed :
    (configureResources o groups st).analyzed = st.analyzed := by
  unfold configureResources
  generalize o.arrange _ = K
  induction K generalizing st <;> simp [*]

@[simp] theorem configureResources_settings :
    (configureResources o groups st).project.settings = st.project.settings := by
  unfold configureResources
  generalize o.arrange _ = K
  induction K generalizing st <;> simp [*]

theorem mem_foldl_configureResourceBase_targeted (K : List (List Char)) (st : JvmState τ) :
    x ∈ (K.foldl (configureResourceBase o groups) st).targeted ↔ x ∈ st.targeted ∨
      ∃ b ∈ K, ∃ grp ∈ groups, grp.targetBase = b ∧
        ∃ r ∈ grp.sources, x = join (join st.project.rootDir b) (dirname r) := by
  induction K generalizing st with
  | nil => simp
  | cons b K ih =>
    simp only [List.foldl, ih, mem_configureResourceBase_targeted, configureResourceBase_rootDir,
      List.mem_cons,
      or_and_right, exists_or, exists_eq_left, or_assoc]

@[simp] theorem configureResources_rootDir :
    (configureResources o groups st).project.rootDir = st.project.rootDir :=
  congrArg Prod.fst configureResources_settings

theorem mem_configureResources_targeted : x ∈ (configureResources o groups st).targeted ↔
    x ∈ st.targeted ∨ ∃ grp ∈ groups, ∃ r ∈ grp.sources,
      x = join (join st.project.rootDir grp.targetBase) (dirname r) := by
  rw [configureResources, mem_foldl_configureResourceBase_targeted]
  refine or_congr Iff.rfl ⟨?_, ?_⟩
  · rintro ⟨b, -, grp, hg, rfl, hr⟩; exact ⟨grp, hg, hr⟩
  · rintro ⟨grp, hg, hr⟩
    exact ⟨grp.targetBase, (o.mem_arrange _ _).2 (List.mem_map_of_mem _ hg), grp, hg, rfl, hr⟩

theorem Owned.configureResources (h : st.Owned g root)
    (hd : ∀ grp ∈ groups, ∀ r ∈ grp.sources, ∃ t ∈ st.analyzed,
      DeclaresDir g t grp.targetBase (dirname r)) :
    (configureResources o groups st).Owned g root := by
  unfold JvmState.configureResources
  generalize o.arrange _ = K
  induction K generalizing st with
  | nil => exact h
  | cons b K ih => exact ih (h.configureResourceBase hd) (by simpa using hd)

end Resources

/-! ## `configure_target` -/

section Target
variable {t : τ}

/-- The directories `configure_target` registers for `t`, by kind of file. -/
theorem exists_declaresDir_iff : (∃ base path, DeclaresDir g t base path ∧
      x = join (join root base) path) ↔
    ((g.get t).hasResources = true ∧ ∃ grp ∈ (g.get t).resources, ∃ r ∈ grp.sources,
        x = join (join root grp.targetBase) (dirname r)) ∨
      ∃ s ∈ (g.get t).sources, x = join (join root (g.get t).targetBase) (dirname s) := by
  constructor
  · rintro ⟨base, path, (⟨rfl, s, hs, rfl⟩ | ⟨hres, grp, hg, rfl, r, hr, rfl⟩), rfl⟩
    exacts [.inr ⟨s, hs, rfl⟩, .inl ⟨hres, grp, hg, r, hr, rfl⟩]
  · rintro (⟨hres, grp, hg, r, hr, rfl⟩ | ⟨s, hs, rfl⟩)
    exacts [⟨_, _, .inr ⟨hres, grp, hg, rfl, r, hr, rfl⟩, rfl⟩, ⟨_, _, .inl ⟨rfl, s, hs, rfl⟩, rfl⟩]

section Register
variable {o : IterOrder (List Char)}

@[simp] theorem registerTarget_analyzed :
    (registerTarget o g t st).analyzed = st.analyzed ++ [t] := by
  simp only [registerTarget]; split_ifs <;> simp

@[simp] theorem registerTarget_settings :
    (registerTarget o g t st).project.settings = st.project.settings := by
  simp only [registerTarget]
  split_ifs
  · exact configureResources_settings
  · rfl
  · exact configureSourceSets_settings.trans configureResources_settings
  · exact configureSourceSets_settings

theorem mem_registerTarget_targeted : x ∈ (registerTarget o g t st).targeted ↔
    x ∈ st.targeted ∨ ∃ base path, DeclaresDir g t base path ∧
      x = join (join st.project.rootDir base) path := by
  rw [exists_declaresDir_iff]
  simp only [registerTarget]
  split_ifs with hsrc hres hres <;>
    simp [mem_configureSourceSets_targeted, mem_configureResources_targeted, hres, hsrc, or_assoc]

theorem Owned.registerTarget (h : st.Owned g root) : (registerTarget o g t st).Owned g root := by
  have h1 : Owned g root { st with analyzed := st.analyzed ++ [t], project := { st.project with
      hasScala := !st.project.skipScala && (st.project.hasScala || isScala (g.get t)) } } :=
    ⟨h.rootDir, h.targeted, h.nodup, fun ss hss => (h.sources ss hss).imp_right
      fun ⟨u, hu, rest⟩ => ⟨u, List.mem_append_left _ hu, rest⟩⟩
  have ht : t ∈ st.analyzed ++ [t] := List.mem_append_right _ (List.mem_singleton_self t)
  simp only [JvmState.registerTarget]
  split_ifs with hsrc hres hres
  · exact h1.configureResources fun grp hg r hr => ⟨t, ht, .inr ⟨hres, grp, hg, rfl, r, hr, rfl⟩⟩
  · exact h1
  · have h2 : (JvmState.configureResources o (g.get t).resources _).Owned g root :=
      h1.configureResources fun grp hg r hr =>
      ⟨t, ht, .inr ⟨hres, grp, hg, rfl, r, hr, rfl⟩⟩
    refine Owned.configureSourceSets ⟨h2.1, h2.2, h2.3, h2.4⟩
      fun s hs => ⟨t, ?_, .inl ⟨rfl, s, hs, rfl⟩⟩
    simp
  · exact Owned.configureSourceSets ⟨h1.1, h1.2, h1.3, h1.4⟩
      fun s hs => ⟨t, ht, .inl ⟨rfl, s, hs, rfl⟩⟩

theorem Covers.registerTarget (hc : st.Covers g root) (h : st.Owned g root) :
    (registerTarget o g t st).Covers g root := by
  intro u hu base path hd
  rw [registerTarget_analyzed, List.mem_append, List.mem_singleton] at hu
  rw [mem_registerTarget_targeted, h.rootDir]
  rcases hu with hu | rfl
  · exact .inl (hc u hu base path hd)
  · exact .inr ⟨base, path, hd, rfl⟩

end Register

variable {o : SetOrders τ} [DecidableEq τ]

theorem configureTarget_of_mem (h : t ∈ st.analyzed) : configureTarget o g t st = (st, []) :=
  if_pos h

theorem configureTarget_of_not_mem (h : t ∉ st.analyzed) :
    configureTarget o g t st = (registerTarget o.paths g t st,
      ((candidates o.targets g t).filter (· ≠ t)).filter (isSibling st.project g t)) := by
  simp only [configureTarget, if_neg h]
  rw [isSibling_congr registerTarget_settings]

@[simp] theorem configureTarget_settings :
    (configureTarget o g t st).1.project.settings = st.project.settings := by
  by_cases h : t ∈ st.analyzed
  · rw [configureTarget_of_mem h]
  · rw [configureTarget_of_not_mem h, registerTarget_settings]

theorem Owned.configureTarget (h : st.Owned g root) : (configureTarget o g t st).1.Owned g root := by
  by_cases ht : t ∈ st.analyzed
  · rwa [configureTarget_of_mem ht]
  · rw [configureTarget_of_not_mem ht]; exact h.registerTarget

theorem Covers.configureTarget (hc : st.Covers g root) (h : st.Owned g root) :
    (configureTarget o g t st).1.Covers g root := by
  by_cases ht : t ∈ st.analyzed
  · rwa [configureTarget_of_mem ht]
  · rw [configureTarget_of_not_mem ht]; exact hc.registerTarget h

end Target

theorem Owned.init {p : Project τ} {testBases : List (List Char)} (hp : p.sources = []) :
    (init p testBases).Owned g p.rootDir :=
  ⟨rfl, by simp [JvmState.init, hp], by simp [JvmState.init, hp], by simp [JvmState.init, hp]⟩

theorem Covers.init {p : Project τ} {testBases : List (List Char)} :
    (init p testBases).Covers g p.rootDir := by
  simp [Covers, JvmState.init]

end JvmState

/-! ## The walks of `configure_jvm` -/

namespace Project
open JvmState
variable [DecidableEq τ] [Fintype τ] {o : SetOrders τ} {g : BuildGraph τ β} {p : Project τ}
  {root : List Char} {st : JvmState τ}

@[simp] theorem analyze_settings : (p.analyze o g st).project.settings = st.project.settings := by
  unfold analyze
  induction p.targets generalizing st with
  | nil => rfl
  | cons t ts ih =>
    rw [List.foldl, ih]
    exact BuildGraph.walkFrom_preserves g _ _
      (fun s : JvmState τ => s.project.settings = st.project.settings)
      (fun _ _ _ h => configureTarget_settings.trans h) [t] ∅ rfl

/-- The walks keep the invariant. -/
theorem analyze_owned (h : st.Owned g root) (hc : st.Covers g root) :
    (p.analyze o g st).Owned g root ∧ (p.analyze o g st).Covers g root := by
  unfold analyze
  induction p.targets generalizing st with
  | nil => exact ⟨h, hc⟩
  | cons t ts ih =>
    have := BuildGraph.walkFrom_preserves g (configureTarget o g) (p.sourceTarget g)
      (fun st => st.Owned g root ∧ st.Covers g root)
      (fun _ _ _ hs => ⟨hs.1.configureTarget, hs.2.configureTarget hs.1⟩) [t] ∅ ⟨h, hc⟩
    exact ih this.1 this.2

/-- The walks of `configure_jvm` end in a state with the invariant. -/
theorem analyze_init_owned (hp : p.sources = []) (o : SetOrders τ) (g : BuildGraph τ β)
    (testBases : List (List Char)) :
    (p.analyze o g (.init p testBases)).Owned g p.rootDir ∧
      (p.analyze o g (.init p testBases)).Covers g p.rootDir :=
  analyze_owned (Owned.init hp) Covers.init

end Project
end PantsIde
