import PantsIde.SourceSets
import PantsIde.Unexcludable

/-! # The excludes of the configured project

`configure_jvm` decides excludes on raw path strings: a subdirectory `os.walk` yields, spelled
without a trailing separator, is looked up in `targeted`, whose strings end with a separator
when a source set's `path` is `''`, and in `unexcludable_paths`. On normalized declared paths
the two sets together hold the spelling of a directory below the root exactly when it is the
directory of a source set or an ancestor of one (`mem_targeted_or_unexcludable`). So
`configure_jvm` completes (`configureJvm_isSome`), and the excludes of a source set are the
directories on disk strictly below it that are neither (`configureJvm_excludes`). -/

namespace PantsIde
open PosixPath

variable {τ β : Type}

/-- The paths a target declares are normalized relative paths: its base, its sources, and its
resources groups' bases and files. -/
def Target.Normalized (t : Target τ β) : Prop :=
  IsNormRel t.targetBase ∧ (∀ s ∈ t.sources, IsNormRel s) ∧
    ∀ grp ∈ t.resources, IsNormRel grp.targetBase ∧ ∀ r ∈ grp.sources, IsNormRel r

instance (t : Target τ β) : Decidable t.Normalized :=
  inferInstanceAs (Decidable (_ ∧ _ ∧ _))

/-- A source set with a `path`, whose base and path are normalized relative paths. -/
def SourceSet.Normalized (ss : SourceSet) : Prop :=
  ∃ path, ss.path = some path ∧ IsNormRel ss.sourceBase ∧ IsNormRel path

/-- The directory of a source set with a `path`, as names below the root: its base's, then its
path's. -/
def SourceSet.dirComps (ss : SourceSet) : Option (List (List Char)) :=
  ss.path.map fun path => relComps ss.sourceBase ++ relComps path

theorem DeclaresDir.normalized {g : BuildGraph τ β} {t : τ} {base path : List Char}
    (hn : (g.get t).Normalized) (h : DeclaresDir g t base path) :
    IsNormRel base ∧ IsNormRel path := by
  rcases h with ⟨rfl, s, hs, rfl⟩ | ⟨-, grp, hg, rfl, r, hr, rfl⟩
  · exact ⟨hn.1, (hn.2.1 s hs).dirname.1⟩
  · exact ⟨(hn.2.2 grp hg).1, ((hn.2.2 grp hg).2 r hr).dirname.1⟩

theorem JvmState.Owned.normalized {g : BuildGraph τ β} {root : List Char} {st : JvmState τ}
    (h : st.Owned g root) (hnorm : ∀ t, (g.get t).Normalized) :
    ∀ ss ∈ st.project.sources, ss.Normalized := fun ss hss => by
  obtain ⟨-, t, -, path, hpath, hd⟩ := h.sources ss hss
  exact ⟨path, hpath, hd.normalized (hnorm t)⟩

/-! ## Spellings of a normalized source set -/

namespace SourceSet.Normalized
variable {root : List Char} {ss : SourceSet} {D c : List (List Char)}

/-- The directory string of a normalized source set spells its directory. -/
theorem exists_spell (hr : IsRoot root) (h : ss.Normalized) :
    ∃ D t, ss.dirComps = some D ∧ (∀ n ∈ D, IsName n) ∧ (t = true → D ≠ []) ∧
      ss.dirString root = some (PosixPath.spell root D t) := by
  obtain ⟨path, hpath, hb, hp⟩ := h
  refine ⟨_, _, by simp [dirComps, hpath], List.forall_mem_append.2 ⟨hb, hp⟩,
    by simp_all, dirString_spell hr hb hpath hp⟩

theorem exists_loopAdds (hr : IsRoot root) (h : ss.Normalized) : ∃ added, LoopAdds root ss added := by
  obtain ⟨D, t, -, hD, ht, hdir⟩ := h.exists_spell hr
  obtain ⟨added, hadded, -⟩ := unexcludableLoop_spell hr hD ht
  exact ⟨added, _, hdir, hadded⟩

/-- A directory spelled without a trailing separator is spelled by the source set's directory
string only when it is the source set's directory. -/
theorem eq_of_dirString (hr : IsRoot root) (h : ss.Normalized) (hc : ∀ n ∈ c, IsName n)
    (hne : c ≠ []) (hD : ss.dirComps = some D)
    (hx : ss.dirString root = some (PosixPath.spell root c false)) : c = D := by
  obtain ⟨D', t, hD', hnames, -, hdir⟩ := h.exists_spell hr
  rw [hD] at hD'; cases hD'
  rw [hdir, Option.some.injEq] at hx
  cases t
  · exact ((spell_false_inj hnames hc).1 hx).symm
  · exact absurd hx (spell_true_ne_false hr hc hne D)

/-- Among directories spelled without a trailing separator, the loop of a source set adds
those of its directory and its ancestors strictly below the root. -/
theorem mem_loopAdds (hr : IsRoot root) (h : ss.Normalized) (hc : ∀ n ∈ c, IsName n)
    (hne : c ≠ []) (hD : ss.dirComps = some D) {added : List (List Char)}
    (hadd : LoopAdds root ss added) : PosixPath.spell root c false ∈ added ↔ c <+: D := by
  obtain ⟨D', t, hD', hnames, ht, hdir⟩ := h.exists_spell hr
  rw [hD] at hD'; cases hD'
  obtain ⟨parent, hparent, hloop⟩ := hadd
  rw [hdir, Option.some.injEq] at hparent; subst hparent
  obtain ⟨added', hadded', hmem⟩ := unexcludableLoop_spell hr hnames ht
  rw [hloop, Option.some.injEq] at hadded'; subst hadded'
  rw [hmem]
  constructor
  · rintro (⟨-, hx⟩ | ⟨p, hp, -, hx⟩)
    · exact absurd hx.symm (spell_true_ne_false hr hc hne D)
    · rwa [(spell_false_inj hc fun n hn => hnames n (hp.subset hn)).1 hx]
  · exact fun hcD => .inr ⟨c, hcD, .inl hne, rfl⟩

end SourceSet.Normalized

/-- Among directories below the root spelled without a trailing separator, `targeted` and
`unexcludable_paths` hold those of the source sets' directories and of their ancestors. -/
theorem mem_targeted_or_unexcludable {root : List Char} (hr : IsRoot root)
    {sources : List SourceSet} (hss : ∀ ss ∈ sources, ss.Normalized)
    {targeted U : List (List Char)}
    (htarg : ∀ x, x ∈ targeted ↔ ∃ ss ∈ sources, ss.dirString root = some x)
    (hU : unexcludablePaths root sources = some U) {c : List (List Char)}
    (hc : ∀ n ∈ c, IsName n) (hne : c ≠ []) :
    spell root c false ∈ targeted ∨ spell root c false ∈ U ↔
      ∃ ss ∈ sources, ∃ D, ss.dirComps = some D ∧ c <+: D := by
  rw [htarg, mem_unexcludablePaths hU]
  constructor
  · rintro (⟨ss, hs, hx⟩ | ⟨ss, hs, added, hadd, hx⟩)
    · obtain ⟨D, -, hD, -⟩ := (hss ss hs).exists_spell hr
      exact ⟨ss, hs, D, hD, ((hss ss hs).eq_of_dirString hr hc hne hD hx) ▸ List.prefix_rfl⟩
    · obtain ⟨D, -, hD, -⟩ := (hss ss hs).exists_spell hr
      exact ⟨ss, hs, D, hD, ((hss ss hs).mem_loopAdds hr hc hne hD hadd).1 hx⟩
  · rintro ⟨ss, hs, D, hD, hcD⟩
    obtain ⟨added, hadd⟩ := (hss ss hs).exists_loopAdds hr
    exact .inr ⟨ss, hs, added, hadd, ((hss ss hs).mem_loopAdds hr hc hne hD hadd).2 hcD⟩

/-! ## The exclude loop on spellings -/

section ExcludesBelow
variable {o : IterOrder (List Char)} {env : Env} {targeted U : List (List Char)}
  {r : List Char} {B P : List (List Char)} {t : Bool} {e : List Char}

theorem mem_excludesBelow {sourceBase dir : List Char} :
    e ∈ excludesBelow o env targeted U sourceBase dir ↔
      ∃ x ∈ FsNode.children (env.fs.walk env.cwd dir), x ∉ targeted ∧ x ∉ U ∧
        e = relpath env.cwd x sourceBase := by
  simp only [excludesBelow, List.mem_map, List.mem_filter, o.mem_arrange, decide_eq_true_eq]
  exact exists_congr fun x => ⟨fun ⟨⟨⟨hx, ht⟩, hU⟩, he⟩ => ⟨hx, ht, hU, he.symm⟩,
    fun ⟨hx, ht, hU, he⟩ => ⟨⟨⟨hx, ht⟩, hU⟩, he.symm⟩⟩

/-- Below a spelled directory, the exclude loop excludes the names, relative to the base, of
the directories on disk strictly below it whose spellings are neither `targeted` nor
unexcludable. -/
theorem mem_excludesBelow_spell (hr : IsRoot r) (hB : ∀ n ∈ B, IsName n)
    (hP : ∀ n ∈ P, IsName n) (ht : t = true → B ++ P ≠ []) :
    e ∈ excludesBelow o env targeted U (spell r B false) (spell r (B ++ P) t) ↔
      ∃ p, p ≠ [] ∧ (∀ n ∈ p, IsName n) ∧ env.fs.IsDir (normComps true r ++ (B ++ P) ++ p) ∧
        spell r (B ++ P ++ p) false ∉ targeted ∧ spell r (B ++ P ++ p) false ∉ U ∧
        e = relStr (P ++ p) := by
  have hBP : ∀ n ∈ B ++ P, IsName n := List.forall_mem_append.2 ⟨hB, hP⟩
  have hrel : ∀ p, p ≠ [] → (∀ n ∈ p, IsName n) →
      relpath env.cwd (spell r (B ++ P ++ p) false) (spell r B false) = relStr (P ++ p) :=
    fun p hpne hp => by
      rw [List.append_assoc, relpath_spell hr hB (List.forall_mem_append.2 ⟨hP, hp⟩)
        (by simp [hpne])]
  rw [mem_excludesBelow]
  constructor
  · rintro ⟨x, hx, hxt, hxU, he⟩
    obtain rfl := he.symm
    obtain ⟨p, hpne, hp, hdir, rfl⟩ :=
      (Filesystem.mem_children_walk_spell env.fs hr hBP ht env.cwd x).1 hx
    exact ⟨p, hpne, hp, hdir, hxt, hxU, hrel p hpne hp⟩
  · rintro ⟨p, hpne, hp, hdir, hxt, hxU, rfl⟩
    exact ⟨_, (Filesystem.mem_children_walk_spell env.fs hr hBP ht env.cwd _).2
      ⟨p, hpne, hp, hdir, rfl⟩, hxt, hxU, (hrel p hpne hp).symm⟩

theorem excludesBelow_spell_nodup (hr : IsRoot r) (hB : ∀ n ∈ B, IsName n)
    (hP : ∀ n ∈ P, IsName n) (ht : t = true → B ++ P ≠ []) :
    (excludesBelow o env targeted U (spell r B false) (spell r (B ++ P) t)).Nodup := by
  have hBP : ∀ n ∈ B ++ P, IsName n := List.forall_mem_append.2 ⟨hB, hP⟩
  refine List.Nodup.map_on (fun x hx y hy hxy => ?_) (((o.nodup _).filter _))
  obtain ⟨p, hpne, hp, -, rfl⟩ := (Filesystem.mem_children_walk_spell env.fs hr hBP ht env.cwd x).1
    ((o.mem_arrange _ _).1 (List.mem_of_mem_filter hx) |> List.mem_of_mem_filter)
  obtain ⟨p', hpne', hp', -, rfl⟩ := (Filesystem.mem_children_walk_spell env.fs hr hBP ht env.cwd y).1
    ((o.mem_arrange _ _).1 (List.mem_of_mem_filter hy) |> List.mem_of_mem_filter)
  have hPp : ∀ n ∈ P ++ p, IsName n := List.forall_mem_append.2 ⟨hP, hp⟩
  have hPp' : ∀ n ∈ P ++ p', IsName n := List.forall_mem_append.2 ⟨hP, hp'⟩
  simp only [List.append_assoc, relpath_spell hr hB hPp (by simp [hpne]),
    relpath_spell hr hB hPp' (by simp [hpne'])] at hxy
  have hpp : P ++ p = P ++ p' := by rw [← relComps_relStr hPp, hxy, relComps_relStr hPp']
  rw [List.append_cancel_left hpp]

end ExcludesBelow

/-- An exclude names, relative to its source set's base, the directory it was computed for. -/
theorem resolve_join_relpath {r b : List Char} (hr : IsRoot r) (hb : IsNormRel b)
    {c : List (List Char)} (hc : ∀ n ∈ c, IsName n) (hpre : relComps b <+: c)
    (hne : relComps b ≠ c) (cwd : List Char) :
    resolve cwd (join (join r b) (relpath cwd (join r (relStr c)) (join r b))) =
      normComps true r ++ c := by
  obtain ⟨q, rfl⟩ := hpre
  have hq : ∀ n ∈ q, IsName n := fun n hn => hc n (by simp [hn])
  have hqne : q ≠ [] := by rintro rfl; simp at hne
  have hbase : join r b = spell r (relComps b) false := by
    rw [← join_relStr r hb, relStr_relComps]
  rw [join_relStr r hc, hbase, relpath_spell hr hb hq hqne, join_spell hr hb hq (by simp),
    resolve_spell hr hc]

/-! ## The excludes of `configure_jvm` -/

theorem mapM_isSome {α γ : Type} {f : α → Option γ} :
    ∀ {l : List α}, (∀ a ∈ l, (f a).isSome) → (l.mapM f).isSome
  | [], _ => rfl
  | a :: l, h => by
    obtain ⟨b, hb⟩ := Option.isSome_iff_exists.1 (h a (.head _))
    obtain ⟨bs, hbs⟩ := Option.isSome_iff_exists.1 (mapM_isSome fun a' ha' => h a' (.tail _ ha'))
    simp only [List.mapM_cons, hb, hbs]
    rfl

namespace Project
open JvmState
variable [DecidableEq τ] [Fintype τ] {o : SetOrders τ} {env : Env} {g : BuildGraph τ β}
  {p : Project τ} {testBases extraSourcePaths extraTestPaths : List (List Char)}
  {res : Project τ × List τ × List (List Char)}

/-- On a root and normalized declared paths, `configure_jvm` completes: every loop of
`unexcludable_paths` stops. -/
theorem configureJvm_isSome (hr : IsRoot p.rootDir) (hp : p.sources = [])
    (hnorm : ∀ t, (g.get t).Normalized) :
    (p.configureJvm o env g testBases extraSourcePaths extraTestPaths).isSome := by
  have hss := (analyze_init_owned hp o g testBases).1.normalized hnorm
  obtain ⟨U, hU⟩ := Option.isSome_iff_exists.1
    (unexcludablePaths_isSome fun ss hs => (hss ss hs).exists_loopAdds hr)
  have hM : ((p.analyze o g (.init p testBases)).project.sources.mapM (SourceSet.addExcludes
      o.paths env p.rootDir (p.analyze o g (.init p testBases)).targeted U)).isSome :=
    mapM_isSome fun ss hs => by
      obtain ⟨path, hpath, -⟩ := hss ss hs
      simp [SourceSet.addExcludes, hpath]
  obtain ⟨S, hS⟩ := Option.isSome_iff_exists.1 hM
  unfold configureJvm
  simp only [hU, hS, Option.bind_eq_bind, Option.some_bind]
  rfl

/-- The configured project's source sets with a directory are the walks' source sets. -/
theorem configureJvm_dirComps (h : p.configureJvm o env g testBases extraSourcePaths
      extraTestPaths = some res) (D : List (List Char)) :
    (∃ S ∈ res.1.sources, S.dirComps = some D) ↔
      ∃ ss ∈ (p.analyze o g (.init p testBases)).project.sources, ss.dirComps = some D := by
  obtain ⟨U, hfa⟩ := configureJvm_sources_filter h
  have hkey : ∀ ss S : SourceSet, ss.addExcludes o.paths env p.rootDir
      (p.analyze o g (.init p testBases)).targeted U = some S → S.dirComps = ss.dirComps :=
    fun ss S hex => by
      obtain ⟨hb, hpath⟩ := SourceSet.key_of_addExcludes hex
      simp only [SourceSet.dirComps, hb, hpath]
  constructor
  · rintro ⟨S, hS, hD⟩
    have hsome : S.path.isSome := by
      cases hpath : S.path <;> simp_all [SourceSet.dirComps]
    obtain ⟨ss, hs, hex⟩ := forall₂_exists_of_mem_right hfa S (List.mem_filter.2 ⟨hS, hsome⟩)
    exact ⟨ss, hs, hkey ss S hex ▸ hD⟩
  · rintro ⟨ss, hs, hD⟩
    obtain ⟨S, hS, hex⟩ := forall₂_exists_of_mem_left hfa ss hs
    exact ⟨S, (List.mem_filter.1 hS).1, (hkey ss S hex).trans hD⟩

/-- A source set of the configured project with a directory is one of the walks', with the
excludes of the exclude loop. -/
theorem configureJvm_excludes_eq (hp : p.sources = [])
    (h : p.configureJvm o env g testBases extraSourcePaths extraTestPaths = some res)
    {S : SourceSet} (hS : S ∈ res.1.sources) {D : List (List Char)}
    (hD : S.dirComps = some D) :
    ∃ ss ∈ (p.analyze o g (.init p testBases)).project.sources, ∃ path U, ss.path = some path ∧
      unexcludablePaths p.rootDir (p.analyze o g (.init p testBases)).project.sources = some U ∧
      S = { ss with
        excludes := excludesBelow o.paths env (p.analyze o g (.init p testBases)).targeted U
          (join p.rootDir ss.sourceBase) (join (join p.rootDir ss.sourceBase) path) } := by
  obtain ⟨U, sources, hU, hfa, rfl⟩ := configureJvm_eq_some h
  have hS' : S ∈ sources := by
    rcases List.mem_append.1 hS with hS | hS
    · exact hS
    · simp [SourceSet.dirComps, (mem_extraSourceSets hS).1] at hD
  obtain ⟨ss, hs, hex⟩ := forall₂_exists_of_mem_right hfa S hS'
  obtain ⟨path, hpath, rfl⟩ := SourceSet.addExcludes_eq_some hex
  refine ⟨ss, hs, path, U, hpath, hU, ?_⟩
  rw [((analyze_init_owned hp o g testBases).1.sources ss hs).1, List.nil_append]

/-- A directory strictly below the root is neither targeted nor unexcludable exactly when it is
neither the directory of a source set of the configured project nor an ancestor of one. -/
theorem not_targeted_unexcludable_iff (hr : IsRoot p.rootDir) (hp : p.sources = [])
    (hnorm : ∀ t, (g.get t).Normalized)
    (hres : p.configureJvm o env g testBases extraSourcePaths extraTestPaths = some res)
    {U : List (List Char)}
    (hU : unexcludablePaths p.rootDir (p.analyze o g (.init p testBases)).project.sources = some U)
    {c : List (List Char)} (hc : ∀ n ∈ c, IsName n) (hne : c ≠ []) :
    (spell p.rootDir c false ∉ (p.analyze o g (.init p testBases)).targeted ∧
      spell p.rootDir c false ∉ U) ↔
    ∀ S' ∈ res.1.sources, ∀ D', S'.dirComps = some D' → D' ≠ c ∧ ¬(c <+: D' ∧ c ≠ D') := by
  have hown := (analyze_init_owned hp o g testBases).1
  rw [← not_or, mem_targeted_or_unexcludable hr (hown.normalized hnorm) hown.targeted hU hc hne]
  constructor
  · intro hno S' hS' D' hD'
    obtain ⟨ss', hs', hD''⟩ := (configureJvm_dirComps hres D').1 ⟨S', hS', hD'⟩
    exact ⟨fun hDc => hno ⟨ss', hs', D', hD'', hDc ▸ List.prefix_rfl⟩,
      fun hcD => hno ⟨ss', hs', D', hD'', hcD.1⟩⟩
  · rintro hall ⟨ss', hs', D', hD', hcD⟩
    obtain ⟨S', hS', hD''⟩ := (configureJvm_dirComps hres D').2 ⟨ss', hs', hD'⟩
    obtain ⟨hne', hnp⟩ := hall S' hS' D' hD''
    exact hnp ⟨hcD, fun hcD' => hne' hcD'.symm⟩

/-- The excludes of a source set the targets give, on a root and normalized declared paths. -/
theorem excludes_of_configureJvm (hr : IsRoot p.rootDir) (hp : p.sources = [])
    (hnorm : ∀ t, (g.get t).Normalized)
    (hres : p.configureJvm o env g testBases extraSourcePaths extraTestPaths = some res)
    {S : SourceSet} (hS : S ∈ res.1.sources) {D : List (List Char)} (hD : S.dirComps = some D) :
    S.excludes.Nodup ∧
      ∀ e, e ∈ S.excludes ↔ ∃ c, (∀ n ∈ c, IsName n) ∧
        env.fs.IsDir (normComps true p.rootDir ++ c) ∧ D <+: c ∧ D ≠ c ∧
        (∀ S' ∈ res.1.sources, ∀ D', S'.dirComps = some D' → D' ≠ c ∧ ¬(c <+: D' ∧ c ≠ D')) ∧
        e = relpath env.cwd (join p.rootDir (relStr c)) (join p.rootDir S.sourceBase) := by
  have hown := (analyze_init_owned hp o g testBases).1
  obtain ⟨ss, hs, path, U, hpath, hU, rfl⟩ := configureJvm_excludes_eq hp hres hS hD
  obtain ⟨path', hpath', hb, hpn⟩ := hown.normalized hnorm ss hs
  rw [hpath, Option.some.injEq] at hpath'; subst hpath'
  simp only [SourceSet.dirComps, hpath, Option.map_some', Option.some.injEq] at hD; subst hD
  have hB : ∀ n ∈ relComps ss.sourceBase, IsName n := hb
  have hP : ∀ n ∈ relComps path, IsName n := hpn
  have ht : decide (relComps ss.sourceBase ≠ [] ∧ relComps path = []) = true →
      relComps ss.sourceBase ++ relComps path ≠ [] := by simp_all
  have hbase : join p.rootDir ss.sourceBase = spell p.rootDir (relComps ss.sourceBase) false := by
    rw [← join_relStr p.rootDir hB, relStr_relComps]
  simp only
  rw [join_join_spell hr hb hpn, hbase]
  refine ⟨excludesBelow_spell_nodup hr hB hP ht, fun e => ?_⟩
  rw [mem_excludesBelow_spell hr hB hP ht]
  constructor
  · rintro ⟨q, hqne, hq, hdir, hxt, hxU, rfl⟩
    have hc : ∀ n ∈ relComps ss.sourceBase ++ relComps path ++ q, IsName n :=
      List.forall_mem_append.2 ⟨List.forall_mem_append.2 ⟨hB, hP⟩, hq⟩
    refine ⟨_, hc, by rwa [List.append_assoc] at hdir, List.prefix_append _ _,
      by simpa using hqne, (not_targeted_unexcludable_iff hr hp hnorm hres hU hc (by simp [hqne])).1
        ⟨hxt, hxU⟩, ?_⟩
    rw [join_relStr _ hc, List.append_assoc, relpath_spell hr hB
      (List.forall_mem_append.2 ⟨hP, hq⟩) (by simp [hqne])]
  · rintro ⟨c, hc, hdir, ⟨q, rfl⟩, hne, hown', he⟩
    obtain rfl := he.symm
    have hq : ∀ n ∈ q, IsName n := fun n hn => hc n (by simp [hn])
    have hqne : q ≠ [] := by rintro rfl; simp at hne
    obtain ⟨hxt, hxU⟩ :=
      (not_targeted_unexcludable_iff hr hp hnorm hres hU hc (by simp [hqne])).2 hown'
    refine ⟨q, hqne, hq, by rw [List.append_assoc]; exact hdir, hxt, hxU, ?_⟩
    rw [join_relStr _ hc, List.append_assoc, relpath_spell hr hB
      (List.forall_mem_append.2 ⟨hP, hq⟩) (by simp [hqne])]

/-- On a root and normalized declared paths, `configure_jvm` completes, and the excludes of
each source set the targets give are, without repetition, the directories on disk strictly
below its directory that are neither the directory of such a source set nor a proper ancestor
of one, each relative to the source set's base. -/
theorem configureJvm_excludes (hr : IsRoot p.rootDir) (hp : p.sources = [])
    (hnorm : ∀ t, (g.get t).Normalized) :
    ∃ res, p.configureJvm o env g testBases extraSourcePaths extraTestPaths = some res ∧
      ∀ S ∈ res.1.sources, ∀ D, S.dirComps = some D → S.excludes.Nodup ∧
        ∀ e, e ∈ S.excludes ↔ ∃ c, (∀ n ∈ c, IsName n) ∧
          env.fs.IsDir (normComps true p.rootDir ++ c) ∧ D <+: c ∧ D ≠ c ∧
          (∀ S' ∈ res.1.sources, ∀ D', S'.dirComps = some D' → D' ≠ c ∧ ¬(c <+: D' ∧ c ≠ D')) ∧
          e = relpath env.cwd (join p.rootDir (relStr c)) (join p.rootDir S.sourceBase) := by
  have hsome : (p.configureJvm o env g testBases extraSourcePaths extraTestPaths).isSome :=
    configureJvm_isSome hr hp hnorm
  obtain ⟨res, hres⟩ := Option.isSome_iff_exists.1 hsome
  exact ⟨res, hres, fun S hS D hD => excludes_of_configureJvm hr hp hnorm hres hS hD⟩

theorem nestedBases_excludes : ∃ res, nestedBasesProject.configureJvm dedupOrders
      nestedBasesEnv nestedBasesGraph [] [] [] = some res ∧
    ∀ S ∈ res.1.sources, ∀ D, S.dirComps = some D → S.excludes.Nodup ∧
      ∀ e, e ∈ S.excludes ↔ ∃ c, (∀ n ∈ c, IsName n) ∧
        nestedBasesEnv.fs.IsDir (normComps true "/r".toList ++ c) ∧ D <+: c ∧ D ≠ c ∧
        (∀ S' ∈ res.1.sources, ∀ D', S'.dirComps = some D' → D' ≠ c ∧ ¬(c <+: D' ∧ c ≠ D')) ∧
        e = relpath "/".toList (join "/r".toList (relStr c)) (join "/r".toList S.sourceBase) :=
  configureJvm_excludes (by decide) rfl (by decide)

end Project

/-! ## An extra root below a source set

A target with base `''` and source `a/X.java` in a project rooted at `/r`, with the directory
`/r/a/gen` on disk given as an extra source root. -/

/-- The target, `0`. -/
def generatedGraph : BuildGraph (Fin 1) Unit where
  get _ := ⟨(), [], ["a/X.java".toList], false, [], [], [], [], true, false, false, false, false,
    false⟩
  addresses _ := [0]
  ancestors _ := []
  siblings _ := []
  descendants _ := []

/-- The disk: `/r/a/gen`, with `/r` the build root. -/
def generatedEnv : Env :=
  ⟨⟨.dir [("r".toList, .dir [("a".toList, .dir [("gen".toList, .dir [])])])], by decide⟩,
    "/".toList, "/r".toList⟩

/-- The project over the target, transitive. -/
def generatedProject : Project (Fin 1) := .new false false "/r".toList [0] true

/-- The source set `('', 'a')` excludes `a/gen`, which hides `/r/a/gen`, the directory of the
extra root `a/gen` appended after it. -/
theorem generatedRoot_configureJvm : (generatedProject.configureJvm dedupOrders generatedEnv
      generatedGraph [] ["a/gen".toList] []).map (fun res => res.1.sources.map fun S =>
        (S.sourceBase, S.path, S.excludes.map (join (join "/r".toList S.sourceBase)))) =
    some [([], some "a".toList, ["/r/a/gen".toList]), ("a/gen".toList, none, [])] := by
  decide

namespace Project
open JvmState
variable [DecidableEq τ] [Fintype τ] {o : SetOrders τ} {env : Env} {g : BuildGraph τ β}
  {p : Project τ} {testBases extraSourcePaths extraTestPaths : List (List Char)}

/-- On a root and normalized declared paths, what an exclude hides, the directory
`root_dir/source_base/e`, is neither the directory of a source set the targets give nor an
ancestor of one: an extra root that is such a directory, or an ancestor of one, is never
hidden, neither by an exclude naming it nor by one naming an ancestor of it. -/
theorem configureJvm_excludes_spare (hr : IsRoot p.rootDir) (hp : p.sources = [])
    (hnorm : ∀ t, (g.get t).Normalized) :
    ∃ res, p.configureJvm o env g testBases extraSourcePaths extraTestPaths = some res ∧
      ∀ S ∈ res.1.sources, ∀ e ∈ S.excludes, ∃ D, S.dirComps = some D ∧ ∃ q, q ≠ [] ∧
        resolve env.cwd (join (join p.rootDir S.sourceBase) e) = normComps true p.rootDir ++ D ++ q ∧
        ∀ X : List (List Char), (∃ S' ∈ res.1.sources, ∃ D', S'.dirComps = some D' ∧
          X <+: normComps true p.rootDir ++ D') →
        ¬resolve env.cwd (join (join p.rootDir S.sourceBase) e) <+: X := by
  have hsome : (p.configureJvm o env g testBases extraSourcePaths extraTestPaths).isSome :=
    configureJvm_isSome hr hp hnorm
  obtain ⟨res, hres⟩ := Option.isSome_iff_exists.1 hsome
  refine ⟨res, hres, fun S hS e he => ?_⟩
  obtain ⟨D, hD⟩ : ∃ D, S.dirComps = some D := by
    obtain ⟨U, sources, -, hfa, rfl⟩ := configureJvm_eq_some hres
    rcases List.mem_append.1 hS with hS | hS
    · obtain ⟨ss, -, hex⟩ := forall₂_exists_of_mem_right hfa S hS
      obtain ⟨path, hpath, rfl⟩ := SourceSet.addExcludes_eq_some hex
      exact ⟨relComps ss.sourceBase ++ relComps path, by simp [SourceSet.dirComps, hpath]⟩
    · simp [(mem_extraSourceSets hS).2] at he
  refine ⟨D, hD, ?_⟩
  obtain ⟨c, hc, -, ⟨q, rfl⟩, hne, hown, he'⟩ :=
    ((excludes_of_configureJvm hr hp hnorm hres hS hD).2 e).1 he
  obtain rfl := he'.symm
  obtain ⟨ss, hs, path, U, hpath, -, rfl⟩ := configureJvm_excludes_eq hp hres hS hD
  obtain ⟨path', hpath', hb, -⟩ := (analyze_init_owned hp o g testBases).1.normalized hnorm ss hs
  simp only [SourceSet.dirComps, hpath, Option.map_some', Option.some.injEq] at hD
  subst hD
  have hqne : q ≠ [] := by rintro rfl; simp at hne
  have hhidden := resolve_join_relpath hr hb hc (by simp [List.append_assoc]) (by simp [hqne]) env.cwd
  dsimp only at hhidden ⊢
  rw [hhidden]
  refine ⟨q, hqne, List.append_assoc _ _ _ |>.symm, fun X ⟨S', hS', D', hD', hX⟩ hhid => ?_⟩
  have hcD := (List.prefix_append_right_inj _).1 (hhid.trans hX)
  exact (hown S' hS' D' hD').2 ⟨hcD, fun h => (hown S' hS' D' hD').1 h.symm⟩

theorem generatedRoot_excludes_spare : ∃ res, generatedProject.configureJvm dedupOrders
      generatedEnv generatedGraph [] ["a/gen".toList] [] = some res ∧
    ∀ S ∈ res.1.sources, ∀ e ∈ S.excludes, ∃ D, S.dirComps = some D ∧ ∃ q, q ≠ [] ∧
      resolve "/".toList (join (join "/r".toList S.sourceBase) e) = normComps true "/r".toList ++ D ++ q ∧
      ∀ X : List (List Char), (∃ S' ∈ res.1.sources, ∃ D', S'.dirComps = some D' ∧
        X <+: normComps true "/r".toList ++ D') →
      ¬resolve "/".toList (join (join "/r".toList S.sourceBase) e) <+: X :=
  configureJvm_excludes_spare (by decide) rfl (by decide)

end Project

end PantsIde
