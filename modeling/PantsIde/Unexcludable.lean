import PantsIde.Project

/-! # The `unexcludable_paths` loop

The `while True` loop of `configure_jvm` adds its string and splits it with `os.path.split`
until the head is `root_dir`. A round that does not stop either shortens the string or leaves
it as it is, and then the loop never stops (`split_fst_eq_or_length_lt`); so the loop stops
within one round per character of its start or not at all, and `unexcludableLoop` run for that
many rounds is the Python loop (`unexcludableLoop_adequate`).

From a source set's directory string below a root, spelled `spell root q t`, the loop stops and
adds the spellings of the directory and of its ancestors below the root
(`unexcludableLoop_spell`); they denote the directory and its proper ancestors strictly below
the root (`unexcludableLoop_denotes`). `unexcludable_paths` gathers what the loops add
(`mem_unexcludablePaths`). -/

namespace PantsIde
open PosixPath

/-! ## Rounds of the loop -/

section Loop
variable {rootDir : List Char}

theorem unexcludableLoop_succ (fuel : Nat) (parent : List Char) :
    unexcludableLoop rootDir (fuel + 1) parent =
      if (split parent).1 = rootDir then some [parent]
      else (unexcludableLoop rootDir fuel (split parent).1).map (parent :: ·) :=
  rfl

/-- More rounds give the loop the same result. -/
theorem unexcludableLoop_mono {fuel : Nat} {parent : List Char} {added : List (List Char)}
    (h : unexcludableLoop rootDir fuel parent = some added) {m : Nat} (hm : fuel ≤ m) :
    unexcludableLoop rootDir m parent = some added := by
  induction fuel generalizing parent added m with
  | zero => cases h
  | succ fuel ih =>
    obtain ⟨m, rfl⟩ : ∃ m', m = m' + 1 := ⟨m - 1, by omega⟩
    rw [unexcludableLoop_succ] at h ⊢
    by_cases hroot : (split parent).1 = rootDir
    · rwa [if_pos hroot] at h ⊢
    · rw [if_neg hroot] at h ⊢
      obtain ⟨a, ha, rfl⟩ := Option.map_eq_some'.1 h
      rw [ih ha (by omega)]; rfl

/-- At a fixed point of `os.path.split` other than the root, the loop never stops. -/
theorem unexcludableLoop_fixed {parent : List Char} (hfix : (split parent).1 = parent)
    (hne : parent ≠ rootDir) (fuel : Nat) : unexcludableLoop rootDir fuel parent = none := by
  induction fuel with
  | zero => rfl
  | succ fuel ih => rw [unexcludableLoop_succ, hfix, if_neg hne, ih]; rfl

/-- The loop stops within one round per character of its start or not at all: the bound the
model of `configure_jvm` runs it with loses no run that stops. -/
theorem unexcludableLoop_adequate {fuel : Nat} {parent : List Char} {added : List (List Char)}
    (h : unexcludableLoop rootDir fuel parent = some added) :
    unexcludableLoop rootDir (parent.length + 1) parent = some added := by
  induction fuel generalizing parent added with
  | zero => cases h
  | succ fuel ih =>
    rw [unexcludableLoop_succ] at h ⊢
    by_cases hroot : (split parent).1 = rootDir
    · rwa [if_pos hroot] at h ⊢
    · rw [if_neg hroot] at h ⊢
      obtain ⟨a, ha, rfl⟩ := Option.map_eq_some'.1 h
      rcases split_fst_eq_or_length_lt parent with hfix | hlt
      · rw [hfix] at ha hroot
        rw [unexcludableLoop_fixed hfix hroot] at ha
        cases ha
      · rw [unexcludableLoop_mono (ih ha) (Nat.succ_le_of_lt hlt)]; rfl

end Loop

/-! ## The loop on spellings -/

section Spell
variable {r : List Char} {q : List (List Char)}

/-- From `spell r q false` the loop adds the spellings of `q`'s non-empty prefixes, or of the
root's when `q` is empty. -/
theorem unexcludableLoop_spell_false (hr : IsRoot r) (hq : ∀ n ∈ q, IsName n) :
    ∃ added, unexcludableLoop r (q.length + 1) (spell r q false) = some added ∧
      ∀ x, x ∈ added ↔ ∃ p, p <+: q ∧ (p ≠ [] ∨ q = []) ∧ x = spell r p false := by
  induction q using List.reverseRecOn with
  | nil =>
    refine ⟨[spell r [] false], by rw [unexcludableLoop_succ, split_spell_nil hr, if_pos rfl], ?_⟩
    simp
  | append_singleton q n ih =>
    have hq' : ∀ m ∈ q, IsName m := fun m hm => hq m (by simp [hm])
    have hn : IsName n := hq n (by simp)
    rcases eq_or_ne q [] with rfl | hne
    · refine ⟨[spell r [n] false], ?_, fun x => ?_⟩
      · rw [unexcludableLoop_succ, split_spell_snoc hr hq' hn, if_pos (by simp)]; rfl
      · simp only [List.mem_singleton, List.nil_append, List.cons_ne_nil, or_false]
        constructor
        · rintro rfl; exact ⟨[n], List.prefix_rfl, List.cons_ne_nil _ _, rfl⟩
        · rintro ⟨p, hp, hpne, rfl⟩
          rw [← List.nil_append [n], List.prefix_concat_iff, List.prefix_nil] at hp
          simp_all
    · obtain ⟨added, h, hmem⟩ := ih hq'
      refine ⟨spell r (q ++ [n]) false :: added, ?_, fun x => ?_⟩
      · rw [List.length_append, List.length_singleton, unexcludableLoop_succ,
          split_spell_snoc hr hq' hn, if_neg hne, if_neg (spell_ne_root hr hq' hne), h]
        rfl
      · simp only [List.mem_cons, hmem, List.prefix_concat_iff, hne, or_false]
        constructor
        · rintro (rfl | ⟨p, hp, hpne, rfl⟩)
          exacts [⟨_, .inl rfl, .inl (by simp), rfl⟩, ⟨p, .inr hp, .inl hpne, rfl⟩]
        · rintro ⟨p, rfl | hp, hpne, rfl⟩
          exacts [.inl rfl, .inr ⟨p, hp, hpne.resolve_right (by simp), rfl⟩]

/-- From the spelling `spell r q t` of a directory below `r`, the loop stops and adds that
string and the spellings of `q`'s non-empty prefixes, or of the root's when `q` is empty. -/
theorem unexcludableLoop_spell (hr : IsRoot r) (hq : ∀ n ∈ q, IsName n) {t : Bool}
    (ht : t = true → q ≠ []) :
    ∃ added, unexcludableLoop r ((spell r q t).length + 1) (spell r q t) = some added ∧
      ∀ x, x ∈ added ↔ (t = true ∧ x = spell r q true) ∨
        ∃ p, p <+: q ∧ (p ≠ [] ∨ q = []) ∧ x = spell r p false := by
  obtain ⟨added, h, hmem⟩ := unexcludableLoop_spell_false hr hq
  cases t with
  | false => exact ⟨added, unexcludableLoop_adequate h, by simpa using hmem⟩
  | true =>
    have hne := ht rfl
    have hloop : unexcludableLoop r (q.length + 1 + 1) (spell r q true) =
        some (spell r q true :: added) := by
      rw [unexcludableLoop_succ, split_spell_true hq hne, if_neg (spell_ne_root hr hq hne), h]
      rfl
    refine ⟨spell r q true :: added, unexcludableLoop_adequate hloop, ?_⟩
    · exact fun x => by simpa using or_congr_right (hmem x)

end Spell

/-- The directory string of a source set with a normalized base and path spells its
directory below the root. -/
theorem SourceSet.dirString_spell {rootDir : List Char} (hr : IsRoot rootDir) {ss : SourceSet}
    {path : List Char} (hb : IsNormRel ss.sourceBase) (hpath : ss.path = some path)
    (hp : IsNormRel path) :
    ss.dirString rootDir = some (spell rootDir (relComps ss.sourceBase ++ relComps path)
      (decide (relComps ss.sourceBase ≠ [] ∧ relComps path = []))) := by
  rw [dirString, hpath, Option.map_some', join_join_spell hr hb hp]

/-- For a root and a source set whose base and path are normalized relative paths, the loop
stops, and the strings it adds denote the source set's directory and its proper ancestors
strictly below the root. -/
theorem unexcludableLoop_denotes {rootDir : List Char} (hr : IsRoot rootDir) {ss : SourceSet}
    {path : List Char} (hb : IsNormRel ss.sourceBase) (hpath : ss.path = some path)
    (hp : IsNormRel path) (cwd : List Char) :
    ∃ parent added, ss.dirString rootDir = some parent ∧
      unexcludableLoop rootDir (parent.length + 1) parent = some added ∧
      ∀ d, (∃ x ∈ added, resolve cwd x = d) ↔
        d = normComps true rootDir ++ (relComps ss.sourceBase ++ relComps path) ∨
        ∃ q, q ≠ [] ∧ q <+: relComps ss.sourceBase ++ relComps path ∧
          q ≠ relComps ss.sourceBase ++ relComps path ∧ d = normComps true rootDir ++ q := by
  have hQ : ∀ n ∈ relComps ss.sourceBase ++ relComps path, IsName n :=
    List.forall_mem_append.2 ⟨hb, hp⟩
  have ht : decide (relComps ss.sourceBase ≠ [] ∧ relComps path = []) = true →
      relComps ss.sourceBase ++ relComps path ≠ [] := by simp_all
  obtain ⟨added, h, hmem⟩ := unexcludableLoop_spell hr hQ ht
  refine ⟨_, added, SourceSet.dirString_spell hr hb hpath hp, h, fun d => ⟨?_, ?_⟩⟩
  · rintro ⟨x, hx, rfl⟩
    rcases (hmem x).1 hx with ⟨-, rfl⟩ | ⟨p, hpq, hpne, rfl⟩
    · exact .inl (resolve_spell hr hQ cwd true)
    · rw [resolve_spell hr (fun n hn => hQ n (hpq.subset hn))]
      by_cases hpeq : p = relComps ss.sourceBase ++ relComps path
      · exact .inl (hpeq ▸ rfl)
      · refine .inr ⟨p, ?_, hpq, hpeq, rfl⟩
        rintro rfl
        exact hpeq (hpne.resolve_left (not_not.2 rfl)).symm
  · rintro (rfl | ⟨p, hpne, hpq, -, rfl⟩)
    · exact ⟨_, (hmem _).2 (.inr ⟨_, List.prefix_rfl, (em _).symm, rfl⟩), resolve_spell hr hQ cwd false⟩
    · exact ⟨_, (hmem _).2 (.inr ⟨p, hpq, .inl hpne, rfl⟩),
        resolve_spell hr (fun n hn => hQ n (hpq.subset hn)) cwd false⟩

theorem nested_unexcludableLoop_denotes : ∃ parent added,
    SourceSet.dirString "/r".toList ⟨"/r".toList, "a".toList, some "b".toList, false, []⟩ =
      some parent ∧
    unexcludableLoop "/r".toList (parent.length + 1) parent = some added ∧
    ∀ d, (∃ x ∈ added, resolve "/".toList x = d) ↔
      d = normComps true "/r".toList ++ (relComps "a".toList ++ relComps "b".toList) ∨
      ∃ q, q ≠ [] ∧ q <+: relComps "a".toList ++ relComps "b".toList ∧
        q ≠ relComps "a".toList ++ relComps "b".toList ∧ d = normComps true "/r".toList ++ q :=
  unexcludableLoop_denotes (by decide) (by decide) rfl (by decide) "/".toList

/-! ## `unexcludable_paths` -/

section Paths
variable {rootDir : List Char} {sources : List SourceSet}

/-- The loop of one source set: its directory string and what the loop adds from it. -/
def LoopAdds (rootDir : List Char) (ss : SourceSet) (added : List (List Char)) : Prop :=
  ∃ parent, ss.dirString rootDir = some parent ∧
    unexcludableLoop rootDir (parent.length + 1) parent = some added

theorem foldlM_unexcludable {acc U : List (List Char)} (h : sources.foldlM (fun acc ss => do
      let parent ← ss.dirString rootDir
      let added ← unexcludableLoop rootDir (parent.length + 1) parent
      pure (acc ++ added)) acc = some U) (x : List Char) :
    x ∈ U ↔ x ∈ acc ∨ ∃ ss ∈ sources, ∃ added, LoopAdds rootDir ss added ∧ x ∈ added := by
  induction sources generalizing acc with
  | nil => simp_all [pure]
  | cons ss sources ih =>
    simp only [List.foldlM_cons, Option.bind_eq_bind, bind, Option.bind_eq_some, pure,
      Option.some.injEq] at h
    obtain ⟨acc', ⟨parent, hparent, added, hadded, rfl⟩, hrest⟩ := h
    have hloop : ∀ added', LoopAdds rootDir ss added' ↔ added' = added := fun added' =>
      ⟨fun ⟨p, hp, ha⟩ => by rw [hparent] at hp; cases hp; rw [hadded] at ha; cases ha; rfl,
        fun h => h ▸ ⟨parent, hparent, hadded⟩⟩
    rw [ih hrest]
    simp only [List.mem_append, List.mem_cons, exists_eq_or_imp, hloop, exists_eq_left, or_assoc]

/-- `unexcludable_paths` holds what the loops of the source sets add. -/
theorem mem_unexcludablePaths {U : List (List Char)}
    (h : unexcludablePaths rootDir sources = some U) (x : List Char) :
    x ∈ U ↔ ∃ ss ∈ sources, ∃ added, LoopAdds rootDir ss added ∧ x ∈ added := by
  simpa using foldlM_unexcludable h x

/-- `unexcludable_paths` is computed when every loop stops. -/
theorem unexcludablePaths_isSome (h : ∀ ss ∈ sources, ∃ added, LoopAdds rootDir ss added) :
    (unexcludablePaths rootDir sources).isSome := by
  unfold unexcludablePaths
  generalize ([] : List (List Char)) = acc
  induction sources generalizing acc with
  | nil => rfl
  | cons ss sources ih =>
    obtain ⟨added, parent, hparent, hadded⟩ := h ss (.head _)
    simp only [List.foldlM_cons, hparent, hadded, Option.bind_eq_bind, bind, Option.some_bind, pure]
    exact ih (fun ss' hss' => h ss' (.tail _ hss')) _

end Paths

end PantsIde
