import PantsIde.Analyze

/-! # The targets `configure_jvm` expands to

`configure_jvm` walks the dependencies of every member of `project.targets` with
`configure_target`, which analyzes each target passing `source_target` once and hands the walk
the sibling targets whose source directories meet the target's own. `Project.Expanded` says
what the walks analyze without the walks: the least set that holds the targets passing
`source_target` that dependencies reach from `project.targets`, and that is closed under
dependencies and under siblings. The walks analyze only members of it (`foldl_walk_sound`), and
all of them (`foldl_walk_closed`): `configure_target` returns no siblings on a second visit, but
the walk that analyzed the target the first time was handed them (`walk_closed`). The returned
targets are the same set, and none of it depends on the order of `project.targets` or of the
candidates (`configureJvm_targets_expanded`). -/

namespace PantsIde
open Relation

variable {τ β : Type}

/-- `c` is declared in the BUILD file of `t` or in an ancestor, sibling or descendant BUILD file
of it: a candidate of `configure_target`, in whatever order they are enumerated. -/
def Candidate (g : BuildGraph τ β) (t c : τ) : Prop :=
  c ∈ g.addresses (g.get t).buildfile ∨
    (∃ b ∈ g.ancestors (g.get t).buildfile, c ∈ g.addresses b) ∨
    (∃ b ∈ g.siblings (g.get t).buildfile, c ∈ g.addresses b) ∨
    ∃ b ∈ g.descendants (g.get t).buildfile, c ∈ g.addresses b

theorem mem_candidates {o : IterOrder τ} {g : BuildGraph τ β} {t c : τ} :
    c ∈ JvmState.candidates o g t ↔ Candidate g t c := by
  simp [JvmState.candidates, Candidate, o.mem_arrange, or_assoc]

namespace Project
variable [DecidableEq τ] (g : BuildGraph τ β) (p : Project τ)

/-- The targets `configure_jvm` expands to: the least set that holds every target passing
`source_target` that dependencies reach from a member of `project.targets` or from one of its
own members, and every candidate `c ≠ t` of one of its members `t` that passes `source_target`
and whose source directories meet those of `t`. -/
inductive Expanded : τ → Prop
  | root {r t : τ} : r ∈ p.targets → ReflTransGen (DependsOn g) r t →
      p.sourceTarget g t = true → Expanded t
  | dependency {u t : τ} : Expanded u → ReflTransGen (DependsOn g) u t →
      p.sourceTarget g t = true → Expanded t
  | sibling {u c : τ} : Expanded u → Candidate g u c → c ≠ u → p.sourceTarget g c = true →
      (∃ d ∈ p.findSourceBasedirs g u, d ∈ p.findSourceBasedirs g c) → Expanded c

/-- Dependencies lead to `t` from a member of `project.targets` or of the expansion: what the
walks of `configure_jvm` visit. -/
def Reached (t : τ) : Prop :=
  (∃ r ∈ p.targets, ReflTransGen (DependsOn g) r t) ∨
    ∃ u, Expanded g p u ∧ ReflTransGen (DependsOn g) u t

/-- A list of analyzed targets closed under the rules of the expansion that start from a
member. -/
def Closed (analyzed : List τ) : Prop :=
  ∀ u ∈ analyzed,
    (∀ t, ReflTransGen (DependsOn g) u t → p.sourceTarget g t = true → t ∈ analyzed) ∧
    ∀ c, Candidate g u c → c ≠ u → JvmState.isSibling p g u c = true → c ∈ analyzed

variable {g p} {t d : τ}

theorem isSibling_eq_true : JvmState.isSibling p g t d = true ↔
    p.sourceTarget g d = true ∧ ∃ x ∈ p.findSourceBasedirs g t, x ∈ p.findSourceBasedirs g d := by
  simp [JvmState.isSibling]

/-- The expansion is the least set closed under its rules: a list of targets that holds what
dependencies reach from `project.targets` and is closed holds all of it. -/
theorem Expanded.mem_of_closed {A : List τ}
    (hroot : ∀ r ∈ p.targets, ∀ t, ReflTransGen (DependsOn g) r t → p.sourceTarget g t = true →
      t ∈ A) (hc : Closed g p A) (h : Expanded g p t) : t ∈ A := by
  induction h with
  | root hr hrt hpt => exact hroot _ hr _ hrt hpt
  | dependency _ hut hpt ih => exact (hc _ ih).1 _ hut hpt
  | sibling _ hcand hne hpc hd ih => exact (hc _ ih).2 _ hcand hne (isSibling_eq_true.2 ⟨hpc, hd⟩)

theorem Reached.expanded (h : Reached g p t) (ht : p.sourceTarget g t = true) :
    Expanded g p t := by
  rcases h with ⟨r, hr, h⟩ | ⟨u, hu, h⟩
  exacts [.root hr h ht, .dependency hu h ht]

theorem Reached.dependency (h : Reached g p t) (hd : DependsOn g t d) : Reached g p d := by
  rcases h with ⟨r, hr, h⟩ | ⟨u, hu, h⟩
  exacts [.inl ⟨r, hr, h.tail hd⟩, .inr ⟨u, hu, h.tail hd⟩]

/-- The expansion reads the project only through the membership of `project.targets`,
`source_target` and `find_source_basedirs`. -/
theorem Expanded.of_congr {q : Project τ} (ht : ∀ r ∈ p.targets, r ∈ q.targets)
    (hs : p.sourceTarget g = q.sourceTarget g) (hf : p.findSourceBasedirs g = q.findSourceBasedirs g)
    (h : Expanded g p t) : Expanded g q t := by
  induction h with
  | root hr hrt hpt => exact .root (ht _ hr) hrt (hs ▸ hpt)
  | dependency _ hut hpt ih => exact .dependency ih hut (hs ▸ hpt)
  | sibling _ hc hne hpc hd ih => exact .sibling ih hc hne (hs ▸ hpc) (hf ▸ hd)

/-- Listing the same targets in another order gives the same expansion. -/
theorem expanded_targets_iff {targets : List τ} (h : ∀ r, r ∈ targets ↔ r ∈ p.targets) :
    Expanded g { p with targets := targets } t ↔ Expanded g p t := by
  have hs : Project.sourceTarget { p with targets := targets } g = p.sourceTarget g := by
    funext u; simp [sourceTarget, h]
  have hf : Project.findSourceBasedirs { p with targets := targets } g = p.findSourceBasedirs g := by
    funext u; simp only [findSourceBasedirs, hs]
  exact ⟨.of_congr (fun r => (h r).1) hs hf, .of_congr (fun r => (h r).2) hs.symm hf.symm⟩

/-- Two projects with the same settings have the same expansion. -/
theorem expanded_congr {q : Project τ} (h : p.settings = q.settings) :
    Expanded g p t ↔ Expanded g q t := by
  have ht : p.targets = q.targets := congrArg (fun s => s.2.1) h
  exact ⟨.of_congr (fun r => ht ▸ id) (sourceTarget_congr g h) (findSourceBasedirs_congr g h),
    .of_congr (fun r => ht ▸ id) (sourceTarget_congr g h.symm) (findSourceBasedirs_congr g h.symm)⟩

/-- A project that is not transitive expands to its targets that pass `source_target` and to
nothing else: neither dependencies nor siblings are added. -/
theorem expanded_iff_of_not_transitive (h : p.transitive = false) :
    Expanded g p t ↔ t ∈ p.targets ∧ p.sourceTarget g t = true := by
  refine ⟨fun he => ?_, fun ⟨hm, hs⟩ => .root hm .refl hs⟩
  have hs : p.sourceTarget g t = true := by cases he <;> assumption
  refine ⟨?_, hs⟩
  simp only [sourceTarget, h, Bool.false_or, Bool.and_eq_true, decide_eq_true_eq] at hs
  exact hs.1.1

end Project

/-! ## One call of `configure_target` -/

namespace JvmState
variable [DecidableEq τ] {o : SetOrders τ} {g : BuildGraph τ β} {t x : τ} {st : JvmState τ}

theorem mem_configureTarget_analyzed :
    x ∈ (configureTarget o g t st).1.analyzed ↔ x ∈ st.analyzed ∨ x = t := by
  by_cases ht : t ∈ st.analyzed
  · rw [configureTarget_of_mem ht]
    exact ⟨.inl, fun h => h.elim id (· ▸ ht)⟩
  · rw [configureTarget_of_not_mem ht, registerTarget_analyzed, List.mem_append,
      List.mem_singleton]

/-- The targets `configure_target` hands the walk: none for an analyzed target, else its
sibling candidates. -/
theorem mem_configureTarget_siblings : x ∈ (configureTarget o g t st).2 ↔
    t ∉ st.analyzed ∧ Candidate g t x ∧ x ≠ t ∧ isSibling st.project g t x = true := by
  by_cases ht : t ∈ st.analyzed
  · simp [configureTarget_of_mem ht, ht]
  · simp [configureTarget_of_not_mem ht, ht, mem_candidates, and_comm]

end JvmState

/-! ## The walks of `configure_jvm` -/

namespace Project
open JvmState
variable [DecidableEq τ] [Fintype τ] {o : SetOrders τ} {g : BuildGraph τ β} {p : Project τ}
  {r : τ} {st : JvmState τ}

theorem walk_settings :
    (g.walk (configureTarget o g) (p.sourceTarget g) r st).project.settings = st.project.settings :=
  g.walkFrom_preserves _ _ (fun s : JvmState τ => s.project.settings = st.project.settings)
    (fun _ _ _ h => configureTarget_settings.trans h) [r] ∅ rfl

/-- A walk from a reached target analyzes only members of the expansion. -/
theorem walk_sound (hr : Reached g p r) (hs : st.project.settings = p.settings)
    (hA : ∀ u ∈ st.analyzed, Expanded g p u) :
    ∀ u ∈ (g.walk (configureTarget o g) (p.sourceTarget g) r st).analyzed, Expanded g p u := by
  refine (g.walkFrom_invariant (configureTarget o g) (p.sourceTarget g)
    (fun stack _ s => (∀ x ∈ stack, Reached g p x) ∧ s.project.settings = p.settings ∧
      ∀ u ∈ s.analyzed, Expanded g p u) ?_ ?_ ?_ [r] ∅ st ⟨by simpa using hr, hs, hA⟩).2.2
  · intro t rest walked s _ ⟨hst, hs, hA⟩
    exact ⟨fun x hx => hst x (.tail _ hx), hs, hA⟩
  · intro t rest walked s _ hp ⟨hst, hs, hA⟩
    have ht : Expanded g p t := (hst t (.head _)).expanded hp
    refine ⟨fun x hx => ?_, configureTarget_settings.trans hs, fun u hu => ?_⟩
    · rcases List.mem_append.1 hx with hx | hx
      · rcases List.mem_append.1 hx with hx | hx
        · exact (hst t (.head _)).dependency hx
        · obtain ⟨-, hc, hne, hsib⟩ := mem_configureTarget_siblings.1 hx
          rw [isSibling_congr hs, isSibling_eq_true] at hsib
          exact .inr ⟨x, .sibling ht hc hne hsib.1 hsib.2, .refl⟩
      · exact hst x (.tail _ hx)
    · rcases mem_configureTarget_analyzed.1 hu with hu | rfl
      exacts [hA u hu, ht]
  · intro t rest walked s _ _ ⟨hst, hs, hA⟩
    refine ⟨fun x hx => ?_, hs, hA⟩
    rcases List.mem_append.1 hx with hx | hx
    exacts [(hst t (.head _)).dependency hx, hst x (.tail _ hx)]

/-- A walk analyzes what it visits that passes `source_target`. -/
theorem mem_walk_analyzed {x : τ} :
    x ∈ (g.walk (configureTarget o g) (p.sourceTarget g) r st).analyzed ↔ x ∈ st.analyzed ∨
      x ∈ (g.walkFrom (configureTarget o g) (p.sourceTarget g) [r] ∅ st).1 ∧
        p.sourceTarget g x = true := by
  refine g.walkFrom_invariant (configureTarget o g) (p.sourceTarget g)
    (fun _ walked s => ∀ x, x ∈ s.analyzed ↔ x ∈ st.analyzed ∨ x ∈ walked ∧
      p.sourceTarget g x = true) (fun _ _ _ _ _ h => h) ?_ ?_ [r] ∅ st (by simp) x
  · intro t _ walked s ht hp h x
    rw [mem_configureTarget_analyzed, h, Finset.mem_insert]
    rcases eq_or_ne x t with rfl | hx <;> simp [*]
  · intro t _ walked s ht hp h x
    rw [h, Finset.mem_insert]
    rcases eq_or_ne x t with rfl | hx <;> simp [*]

/-- A walk visits the siblings of every target it analyzes. -/
theorem walk_siblings_visited (hs : st.project.settings = p.settings) {u c : τ}
    (hu : u ∈ (g.walk (configureTarget o g) (p.sourceTarget g) r st).analyzed)
    (hnew : u ∉ st.analyzed) (hc : Candidate g u c) (hne : c ≠ u)
    (hsib : isSibling p g u c = true) :
    c ∈ (g.walkFrom (configureTarget o g) (p.sourceTarget g) [r] ∅ st).1 := by
  refine g.walkFrom_closed (configureTarget o g) (p.sourceTarget g)
    (fun _ s x => s.project.settings = p.settings ∧ ∃ u ∈ s.analyzed, u ∉ st.analyzed ∧
      Candidate g u x ∧ x ≠ u ∧ isSibling p g u x = true) ?_ ?_ [r] ∅ st
    (fun _ ⟨_, _, hu, hnew, _⟩ => absurd hu hnew) c
    ⟨walk_settings.trans hs, u, hu, hnew, hc, hne, hsib⟩
  · rintro t walked s x - - ⟨hs', u, hu, hnew, hc, hne, hsib⟩
    have hs : s.project.settings = p.settings := configureTarget_settings.symm.trans hs'
    by_cases hold : u ∈ s.analyzed
    · exact .inl ⟨hs, u, hold, hnew, hc, hne, hsib⟩
    · obtain rfl := (mem_configureTarget_analyzed.1 hu).resolve_left hold
      exact .inr (.inr (.inr (mem_configureTarget_siblings.2
        ⟨hold, hc, hne, by rwa [isSibling_congr hs]⟩)))
  · rintro t walked s x - - h
    exact .inl h

variable (o r) in
/-- One walk from `r`: it analyzes what it visits that passes `source_target`, visits what
dependencies reach from `r`, and visits the siblings of every target it analyzes; so it keeps
the analyzed targets closed, and analyzes what dependencies reach from `r`. -/
theorem walk_closed (hs : st.project.settings = p.settings) (hc : Closed g p st.analyzed) :
    Closed g p (g.walk (configureTarget o g) (p.sourceTarget g) r st).analyzed ∧
    (∀ x ∈ st.analyzed, x ∈ (g.walk (configureTarget o g) (p.sourceTarget g) r st).analyzed) ∧
    ∀ t, ReflTransGen (DependsOn g) r t → p.sourceTarget g t = true →
      t ∈ (g.walk (configureTarget o g) (p.sourceTarget g) r st).analyzed := by
  have hroot : r ∈ (g.walkFrom (configureTarget o g) (p.sourceTarget g) [r] ∅ st).1 :=
    g.mem_walkFrom_of_mem _ _ [r] ∅ st r (List.mem_singleton_self r)
  refine ⟨fun u hu => ?_, fun x hx => mem_walk_analyzed.2 (.inl hx),
    fun t ht hpt => mem_walk_analyzed.2 (.inr ⟨g.reach_mem_walkFrom _ _ [r] st hroot ht, hpt⟩)⟩
  by_cases hold : u ∈ st.analyzed
  · exact ⟨fun t ht hpt => mem_walk_analyzed.2 (.inl ((hc u hold).1 t ht hpt)),
      fun c hc' hne hsib => mem_walk_analyzed.2 (.inl ((hc u hold).2 c hc' hne hsib))⟩
  · have hv := (mem_walk_analyzed.1 hu).resolve_left hold
    exact ⟨fun t ht hpt => mem_walk_analyzed.2 (.inr ⟨g.reach_mem_walkFrom _ _ [r] st hv.1 ht, hpt⟩),
      fun c hc' hne hsib => mem_walk_analyzed.2
        (.inr ⟨walk_siblings_visited hs hu hold hc' hne hsib, (isSibling_eq_true.1 hsib).1⟩)⟩

variable (o) in
/-- The walks from the members of `L` keep the analyzed targets closed, and analyze what
dependencies reach from each member. -/
theorem foldl_walk_closed (L : List τ) (hs : st.project.settings = p.settings)
    (hc : Closed g p st.analyzed) :
    Closed g p (L.foldl (fun st t => g.walk (configureTarget o g) (p.sourceTarget g) t st)
      st).analyzed ∧
    (∀ x ∈ st.analyzed, x ∈ (L.foldl (fun st t => g.walk (configureTarget o g) (p.sourceTarget g)
      t st) st).analyzed) ∧
    ∀ r ∈ L, ∀ t, ReflTransGen (DependsOn g) r t → p.sourceTarget g t = true →
      t ∈ (L.foldl (fun st t => g.walk (configureTarget o g) (p.sourceTarget g) t st)
        st).analyzed := by
  induction L generalizing st with
  | nil => exact ⟨hc, fun _ => id, by simp⟩
  | cons r L ih =>
    have hw := walk_closed o r hs hc
    obtain ⟨hc', hmono, hroot⟩ := ih (walk_settings.trans hs) hw.1
    refine ⟨hc', fun x hx => hmono x (hw.2.1 x hx), ?_⟩
    rintro r' hr' t ht hpt
    rcases List.mem_cons.1 hr' with rfl | hr'
    exacts [hmono t (hw.2.2 t ht hpt), hroot r' hr' t ht hpt]

/-- The walks from members of `project.targets` analyze only members of the expansion. -/
theorem foldl_walk_sound (L : List τ) (hL : ∀ r ∈ L, r ∈ p.targets)
    (hs : st.project.settings = p.settings) (hA : ∀ u ∈ st.analyzed, Expanded g p u) :
    ∀ u ∈ (L.foldl (fun st t => g.walk (configureTarget o g) (p.sourceTarget g) t st)
      st).analyzed, Expanded g p u := by
  induction L generalizing st with
  | nil => exact hA
  | cons r L ih =>
    exact ih (fun r' h => hL r' (.tail _ h)) (walk_settings.trans hs)
      (walk_sound (.inl ⟨r, hL r (.head _), .refl⟩) hs hA)

/-- The walks of `configure_jvm` analyze exactly the expansion. -/
theorem analyze_init_iff_expanded (o : SetOrders τ) (testBases : List (List Char)) (t : τ) :
    t ∈ (p.analyze o g (.init p testBases)).analyzed ↔ Expanded g p t := by
  obtain ⟨hc, -, hroot⟩ := foldl_walk_closed o p.targets
    (show (JvmState.init p testBases).project.settings = p.settings from rfl)
    (by simp [Closed, JvmState.init])
  exact ⟨foldl_walk_sound p.targets (fun _ => id) rfl (by simp [JvmState.init]) t,
    Expanded.mem_of_closed hroot hc⟩

/-- The second walks of `configure_jvm` collect the targets passing `source_target` that
dependencies reach from `project.targets`. -/
theorem mem_collected_iff (x : τ) : x ∈ p.targets.foldl
      (fun ts t => g.walk (fun t ts => (setAdd t ts, [])) (p.sourceTarget g) t ts) [] ↔
    ∃ r ∈ p.targets, ReflTransGen (DependsOn g) r x ∧ p.sourceTarget g x = true := by
  rw [g.foldl_walk_holds_iff _ _ (fun ts x => x ∈ ts) (fun t x => x = t) (fun _ _ => rfl)
    (fun _ _ _ _ => mem_setAdd)]
  simp

/-- `configure_jvm` returns the expansion. -/
theorem mem_projectTargets_iff (o : SetOrders τ) (testBases : List (List Char)) (t : τ) :
    t ∈ projectTargets g p (p.analyze o g (.init p testBases)).analyzed ↔ Expanded g p t := by
  simp only [projectTargets, List.mem_append, List.mem_filter, decide_eq_true_eq,
    analyze_init_iff_expanded]
  refine ⟨fun h => h.elim (fun h => ?_) (·.1), fun h => ?_⟩
  · obtain ⟨r, hr, hrt, hpt⟩ := (mem_collected_iff t).1 h
    exact .root hr hrt hpt
  by_cases hmem : t ∈ p.targets.foldl
    (fun ts t => g.walk (fun t ts => (setAdd t ts, [])) (p.sourceTarget g) t ts) []
  exacts [.inl hmem, .inr ⟨h, hmem⟩]

/-- A run of `configure_jvm` returns the expansion. -/
theorem mem_configureJvm_targets {env : Env}
    {testBases extraSourcePaths extraTestPaths : List (List Char)}
    {res : Project τ × List τ × List (List Char)}
    (h : p.configureJvm o env g testBases extraSourcePaths extraTestPaths = some res) (t : τ) :
    t ∈ res.2.1 ↔ Expanded g p t := by
  obtain ⟨-, -, -, -, rfl⟩ := configureJvm_eq_some h
  exact mem_projectTargets_iff o testBases t

/-- The configured project keeps the settings of the project. -/
theorem configureJvm_settings {env : Env} {testBases extraSourcePaths extraTestPaths : List (List Char)}
    {res : Project τ × List τ × List (List Char)}
    (h : p.configureJvm o env g testBases extraSourcePaths extraTestPaths = some res) :
    res.1.settings = p.settings := by
  obtain ⟨-, -, -, -, rfl⟩ := configureJvm_eq_some h
  exact analyze_settings

theorem configureJvm_targets_expanded {env : Env}
    {testBases extraSourcePaths extraTestPaths : List (List Char)}
    {res : Project τ × List τ × List (List Char)}
    (h : p.configureJvm o env g testBases extraSourcePaths extraTestPaths = some res) :
    (∀ t, t ∈ (p.analyze o g (.init p testBases)).analyzed ↔ Expanded g p t) ∧
    (∀ t, t ∈ res.2.1 ↔ Expanded g p t) ∧
    ∀ (o' : SetOrders τ) (targets : List τ), (∀ r, r ∈ targets ↔ r ∈ p.targets) → ∀ t,
      t ∈ (Project.analyze o' g { p with targets := targets }
        (.init { p with targets := targets } testBases)).analyzed ↔
      t ∈ (p.analyze o g (.init p testBases)).analyzed := by
  refine ⟨analyze_init_iff_expanded o testBases, mem_configureJvm_targets h,
    fun o' targets ht t => ?_⟩
  · rw [analyze_init_iff_expanded, analyze_init_iff_expanded, expanded_targets_iff ht]

end Project

/-! ## A run that expands to a sibling

Two targets declared in one BUILD file, with sources in one directory `src/a`, in a transitive
project rooted at `/r` that names only the first. -/

/-- The targets `0` and `1`: `a/X.java` and `a/Y.java` below the base `src`. -/
def siblingGraph : BuildGraph (Fin 2) Unit where
  get i := ⟨(), "src".toList, [if i = 0 then "a/X.java".toList else "a/Y.java".toList], false, [],
    [], [], [], true, false, false, false, false, false⟩
  addresses _ := [0, 1]
  ancestors _ := []
  siblings _ := []
  descendants _ := []

/-- The disk: `/r/src/a`. -/
def siblingEnv : Env :=
  ⟨⟨.dir [("r".toList, .dir [("src".toList, .dir [("a".toList, .dir [])])])], by decide⟩,
    "/".toList, "/r".toList⟩

/-- The project over target `0`, transitive. -/
def siblingProject : Project (Fin 2) := .new false false "/r".toList [0] true

namespace Project

theorem sibling_targets_expanded : ∃ res, siblingProject.configureJvm dedupOrders siblingEnv
      siblingGraph [] [] [] = some res ∧
    (∀ t, t ∈ (siblingProject.analyze dedupOrders siblingGraph (.init siblingProject [])).analyzed ↔
      Expanded siblingGraph siblingProject t) ∧
    (∀ t, t ∈ res.2.1 ↔ Expanded siblingGraph siblingProject t) ∧
    ∀ (o' : SetOrders (Fin 2)) (targets : List (Fin 2)),
      (∀ r, r ∈ targets ↔ r ∈ siblingProject.targets) → ∀ t,
      t ∈ (Project.analyze o' siblingGraph { siblingProject with targets := targets }
        (.init { siblingProject with targets := targets } [])).analyzed ↔
      t ∈ (siblingProject.analyze dedupOrders siblingGraph (.init siblingProject [])).analyzed := by
  obtain ⟨res, h⟩ := Option.isSome_iff_exists.1 (by decide : (siblingProject.configureJvm
    dedupOrders siblingEnv siblingGraph [] [] []).isSome)
  exact ⟨res, h, configureJvm_targets_expanded h⟩

/-- The run returns both targets. -/
example : (siblingProject.configureJvm dedupOrders siblingEnv siblingGraph [] [] []).map
    (fun res => res.2.1) = some [0, 1] := by
  decide

end Project
end PantsIde
