import Mathlib.Data.Fintype.Card

/-! # Targets, BUILD files and `Target.walk`

The build graph `ide_gen.py` reads: targets named by their addresses, each with its declared
sources and resource groups, dependency edges, jar dependencies, excludes and capability
flags, and the BUILD file that declares it, with the ancestor, sibling and descendant BUILD
files candidate siblings are drawn from (`BuildGraph`).

`Target`, `Target.walk` and `Target.extract_jvm_targets` live outside `ide_gen.py`; they are
modelled from the spec. `BuildGraph.walkFrom` is the walker of §4.1 as a depth-first run over
an explicit stack: a target is visited at most once per walk, `work` is called only on targets
passing the predicate, the predicate does not gate traversal, and the targets `work` returns
are walked after the target's dependencies. The addresses form a finite type, so a walk makes
at most one expansion per address: `walkFrom` runs with that many expansions as fuel, which
keeps it structurally recursive (and `decide` able to run it), and `walkFrom_induction` is
its induction principle. -/

namespace PantsIde

/-- A jar dependency; the code reads only whether it has a `rev`. -/
structure JarDependency where
  coordinate : List Char
  rev : Option (List Char)
deriving DecidableEq

/-- `if jar.rev`: a revision that is set and non-empty. -/
def JarDependency.hasRev (jar : JarDependency) : Bool :=
  match jar.rev with
  | some rev => !rev.isEmpty
  | none => false

/-- An exclude, passed through to the external-jars binary. -/
structure Exclude where
  org : List Char
  name : List Char
deriving DecidableEq

/-- A resources group of a target: its own base and its resource files. -/
structure Resources where
  targetBase : List Char
  sources : List (List Char)
deriving DecidableEq

/-- A target as `ide_gen.py` reads it; dependencies are addresses `τ`, the BUILD file is a `β`. -/
structure Target (τ β : Type) where
  buildfile : β
  targetBase : List Char
  sources : List (List Char)
  hasResources : Bool
  resources : List Resources
  dependencies : List τ
  jarDependencies : List JarDependency
  excludes : List Exclude
  isJvm : Bool
  isTest : Bool
  isCodegen : Bool
  isApt : Bool
  isJava : Bool
  isScala : Bool

/-- The build graph: `Target.get` on every address, and for a BUILD file the addresses it
declares (`Target.get_all_addresses`) and its ancestor, sibling and descendant BUILD files. -/
structure BuildGraph (τ β : Type) where
  get : τ → Target τ β
  addresses : β → List τ
  ancestors : β → List β
  siblings : β → List β
  descendants : β → List β

variable {τ β σ : Type}

/-- Modelled from the spec (§3, capabilities from declared source extensions):
`Target.has_sources(extension)`, some declared source ends with `extension`; with the default
`''` it is "has any source". -/
def Target.hasSources (t : Target τ β) (extension : List Char) : Bool :=
  t.sources.any (extension.isSuffixOf ·)

/-- `is_scala(target)`. -/
def isScala (t : Target τ β) : Bool := t.hasSources ".scala".toList || t.isScala

/-- `is_java(target)`. -/
def isJava (t : Target τ β) : Bool := t.hasSources ".java".toList || t.isJava

/-- `d` is a dependency of `t`. -/
def DependsOn (g : BuildGraph τ β) (t d : τ) : Prop := d ∈ (g.get t).dependencies

namespace BuildGraph

/-- Modelled from the spec: `Target.extract_jvm_targets`, the JVM targets among `targets`. -/
def extractJvmTargets (g : BuildGraph τ β) (targets : List τ) : List τ :=
  targets.filter fun t => (g.get t).isJvm

/-! ## The walk -/

variable [DecidableEq τ]

/-- Modelled from the spec (§4.1): one expansion of `Target._walk` over the stack of targets
still to visit. Visited targets are popped; the first unvisited one is marked and, when it
passes `pred`, `work` is called on it; the walk goes on with `k` over the target's
dependencies, then the targets `work` returned, then the rest of the stack. -/
def walkStep (g : BuildGraph τ β) (work : τ → σ → σ × List τ) (pred : τ → Bool)
    (k : List τ → Finset τ → σ → Finset τ × σ) : List τ → Finset τ → σ → Finset τ × σ
  | [], walked, s => (walked, s)
  | t :: rest, walked, s =>
    if t ∈ walked then g.walkStep work pred k rest walked s
    else if pred t then
      k ((g.get t).dependencies ++ (work t s).2 ++ rest) (insert t walked) (work t s).1
    else k ((g.get t).dependencies ++ rest) (insert t walked) s

/-- The walk allowed `fuel` expansions. -/
def walkFuel (g : BuildGraph τ β) (work : τ → σ → σ × List τ) (pred : τ → Bool) :
    Nat → List τ → Finset τ → σ → Finset τ × σ
  | 0, _, walked, s => (walked, s)
  | fuel + 1, stack, walked, s => g.walkStep work pred (g.walkFuel work pred fuel) stack walked s

/-- The walk over `stack` from the visited set `walked`. Every expansion visits a new target,
so one more expansion than there are unvisited targets is never used up: `walkFrom` unfolds as
the walker does (`walkFrom_cons_of_pred`). -/
def walkFrom [Fintype τ] (g : BuildGraph τ β) (work : τ → σ → σ × List τ) (pred : τ → Bool)
    (stack : List τ) (walked : Finset τ) (s : σ) : Finset τ × σ :=
  g.walkFuel work pred (Fintype.card τ + 1 - walked.card) stack walked s

/-- `target.walk(work, predicate)`: a walk from one target with a fresh visited set; the code
keeps only `work`'s effects. -/
def walk [Fintype τ] (g : BuildGraph τ β) (work : τ → σ → σ × List τ) (pred : τ → Bool)
    (root : τ) (s : σ) : σ :=
  (g.walkFrom work pred [root] ∅ s).2

/-! ## Unfolding the walk -/

section WalkFrom
variable [Fintype τ] (g : BuildGraph τ β) (work : τ → σ → σ × List τ) (pred : τ → Bool)

/-- The fuel left for an expansion from `walked` is one more than the fuel left after it. -/
theorem card_sub_insert {t : τ} {walked : Finset τ} (h : t ∉ walked) :
    Fintype.card τ + 1 - walked.card = Fintype.card τ + 1 - (insert t walked).card + 1 := by
  have := Finset.card_le_univ (insert t walked)
  rw [Finset.card_insert_of_not_mem h] at this ⊢
  omega

@[simp] theorem walkFrom_nil (walked : Finset τ) (s : σ) :
    g.walkFrom work pred [] walked s = (walked, s) := by
  unfold walkFrom; cases Fintype.card τ + 1 - walked.card <;> rfl

theorem walkFrom_cons_of_mem {t : τ} {walked : Finset τ} (h : t ∈ walked) (rest : List τ) (s : σ) :
    g.walkFrom work pred (t :: rest) walked s = g.walkFrom work pred rest walked s := by
  unfold walkFrom
  cases Fintype.card τ + 1 - walked.card with
  | zero => rfl
  | succ fuel => simp only [walkFuel, walkStep, if_pos h]

theorem walkFrom_cons_of_pred {t : τ} {walked : Finset τ} (h : t ∉ walked) (hp : pred t = true)
    (rest : List τ) (s : σ) :
    g.walkFrom work pred (t :: rest) walked s =
      g.walkFrom work pred ((g.get t).dependencies ++ (work t s).2 ++ rest) (insert t walked)
        (work t s).1 := by
  rw [walkFrom, card_sub_insert h, walkFuel, walkStep, if_neg h, if_pos hp]; rfl

theorem walkFrom_cons_of_not_pred {t : τ} {walked : Finset τ} (h : t ∉ walked)
    (hp : ¬pred t = true) (rest : List τ) (s : σ) :
    g.walkFrom work pred (t :: rest) walked s =
      g.walkFrom work pred ((g.get t).dependencies ++ rest) (insert t walked) s := by
  rw [walkFrom, card_sub_insert h, walkFuel, walkStep, if_neg h, if_neg hp]; rfl

/-- Induction along a walk, one case per unfolding lemma: the stack is empty, its top is
visited, or its top is expanded with or without `work`. -/
theorem walkFrom_induction {motive : List τ → Finset τ → σ → Prop}
    (nil : ∀ walked s, motive [] walked s)
    (visited : ∀ t rest walked s, t ∈ walked → motive rest walked s → motive (t :: rest) walked s)
    (expand : ∀ t rest walked s, t ∉ walked → pred t = true →
      motive ((g.get t).dependencies ++ (work t s).2 ++ rest) (insert t walked) (work t s).1 →
      motive (t :: rest) walked s)
    (skip : ∀ t rest walked s, t ∉ walked → ¬pred t = true →
      motive ((g.get t).dependencies ++ rest) (insert t walked) s → motive (t :: rest) walked s)
    (stack : List τ) (walked : Finset τ) (s : σ) : motive stack walked s := by
  suffices ∀ n stack walked s, Fintype.card τ - walked.card = n → motive stack walked s from
    this _ stack walked s rfl
  intro n
  induction n using Nat.strong_induction_on with
  | _ n ih =>
    intro stack walked s h
    induction stack generalizing s with
    | nil => exact nil walked s
    | cons t rest ihr =>
      by_cases hw : t ∈ walked
      · exact visited t rest walked s hw (ihr s)
      have hlt : Fintype.card τ - (insert t walked).card < n := by
        have := Finset.card_le_univ (insert t walked)
        rw [Finset.card_insert_of_not_mem hw] at this ⊢; omega
      by_cases hp : pred t = true
      · exact expand t rest walked s hw hp (ih _ hlt _ _ _ rfl)
      · exact skip t rest walked s hw hp (ih _ hlt _ _ _ rfl)

/-- An invariant of the walk's configurations that each kind of step keeps holds when the walk
ends, with its stack empty. -/
theorem walkFrom_invariant (I : List τ → Finset τ → σ → Prop)
    (visited : ∀ t rest walked s, t ∈ walked → I (t :: rest) walked s → I rest walked s)
    (expand : ∀ t rest walked s, t ∉ walked → pred t = true → I (t :: rest) walked s →
      I ((g.get t).dependencies ++ (work t s).2 ++ rest) (insert t walked) (work t s).1)
    (skip : ∀ t rest walked s, t ∉ walked → ¬pred t = true → I (t :: rest) walked s →
      I ((g.get t).dependencies ++ rest) (insert t walked) s)
    (stack : List τ) (walked : Finset τ) (s : σ) (h : I stack walked s) :
    I [] (g.walkFrom work pred stack walked s).1 (g.walkFrom work pred stack walked s).2 := by
  induction stack, walked, s using walkFrom_induction g work pred with
  | nil walked s => simpa using h
  | visited t rest walked s hw ih =>
    rw [walkFrom_cons_of_mem g work pred hw]; exact ih (visited t rest walked s hw h)
  | expand t rest walked s hw hp ih =>
    rw [walkFrom_cons_of_pred g work pred hw hp]; exact ih (expand t rest walked s hw hp h)
  | skip t rest walked s hw hp ih =>
    rw [walkFrom_cons_of_not_pred g work pred hw hp]; exact ih (skip t rest walked s hw hp h)

/-! ## What a walk visits -/

/-- Whatever the walk owes a visit is visited when it ends, if it is visited or on the stack at
the start, and each step owes only what was owed before it, the target it visits, and the
targets it pushes. -/
theorem walkFrom_closed (Due : Finset τ → σ → τ → Prop)
    (expand : ∀ t walked s x, t ∉ walked → pred t = true → Due (insert t walked) (work t s).1 x →
      Due walked s x ∨ x = t ∨ x ∈ (g.get t).dependencies ∨ x ∈ (work t s).2)
    (skip : ∀ t walked s x, t ∉ walked → ¬pred t = true → Due (insert t walked) s x →
      Due walked s x ∨ x = t ∨ x ∈ (g.get t).dependencies)
    (stack : List τ) (walked : Finset τ) (s : σ) (h : ∀ x, Due walked s x → x ∈ walked ∨ x ∈ stack) :
    ∀ x, Due (g.walkFrom work pred stack walked s).1 (g.walkFrom work pred stack walked s).2 x →
      x ∈ (g.walkFrom work pred stack walked s).1 := by
  have := g.walkFrom_invariant work pred
    (fun stack walked s => ∀ x, Due walked s x → x ∈ walked ∨ x ∈ stack) ?_ ?_ ?_ stack walked s h
  · simpa using this
  · intro t rest walked s ht h x hx
    rcases h x hx with h | h
    · exact .inl h
    · rcases List.mem_cons.1 h with rfl | h
      exacts [.inl ht, .inr h]
  · intro t rest walked s _ hp h x hx
    have := expand t walked s x ‹_› hp hx
    simp only [Finset.mem_insert, List.mem_append, List.mem_cons] at h this ⊢
    rcases this with hx | hx | hx | hx
    · rcases h x hx with h | h | h <;> simp [h]
    all_goals simp [hx]
  · intro t rest walked s _ hp h x hx
    have := skip t walked s x ‹_› hp hx
    simp only [Finset.mem_insert, List.mem_append, List.mem_cons] at h this ⊢
    rcases this with hx | hx | hx
    · rcases h x hx with h | h | h <;> simp [h]
    all_goals simp [hx]

/-- Every target on the stack is visited. -/
theorem mem_walkFrom_of_mem (stack : List τ) (walked : Finset τ) (s : σ) :
    ∀ t ∈ stack, t ∈ (g.walkFrom work pred stack walked s).1 :=
  g.walkFrom_closed work pred (fun _ _ x => x ∈ stack) (fun _ _ _ _ _ _ h => .inl h)
    (fun _ _ _ _ _ _ h => .inl h) stack walked s (fun _ => .inr)

/-- The dependencies of a target the walk visits are visited too. -/
theorem dependencies_mem_walkFrom (stack : List τ) (walked : Finset τ) (s : σ) :
    ∀ t ∈ (g.walkFrom work pred stack walked s).1, t ∉ walked →
      ∀ d ∈ (g.get t).dependencies, d ∈ (g.walkFrom work pred stack walked s).1 := by
  intro t ht hnew d hd
  refine g.walkFrom_closed work pred
    (fun walked' _ x => ∃ t ∈ walked', t ∉ walked ∧ x ∈ (g.get t).dependencies) ?_ ?_ stack walked s
    (fun _ ⟨_, ht, hnew, _⟩ => absurd ht hnew) d ⟨t, ht, hnew, hd⟩
  · rintro u walked' - x - - ⟨t, ht, hnew, hx⟩
    rcases Finset.mem_insert.1 ht with rfl | ht
    exacts [.inr (.inr (.inl hx)), .inl ⟨t, ht, hnew, hx⟩]
  · rintro u walked' - x - - ⟨t, ht, hnew, hx⟩
    rcases Finset.mem_insert.1 ht with rfl | ht
    exacts [.inr (.inr hx), .inl ⟨t, ht, hnew, hx⟩]

/-- A walk keeps every invariant that `work` keeps. -/
theorem walkFrom_preserves (P : σ → Prop) (hP : ∀ t s, pred t = true → P s → P (work t s).1)
    (stack : List τ) (walked : Finset τ) {s : σ} (hs : P s) :
    P (g.walkFrom work pred stack walked s).2 :=
  g.walkFrom_invariant work pred (fun _ _ s => P s) (fun _ _ _ _ _ h => h)
    (fun t _ _ s _ hp h => hP t s hp h) (fun _ _ _ _ _ _ h => h) stack walked s hs

/-- A walk visits only targets with a property that the stack and the visited set have and that
passes to dependencies and to the targets `work` returns. -/
theorem walkFrom_visits_only (P : τ → Prop) (hdep : ∀ t d, P t → DependsOn g t d → P d)
    (hwork : ∀ t s, pred t = true → P t → ∀ x ∈ (work t s).2, P x)
    (stack : List τ) (walked : Finset τ) (s : σ) (hs : ∀ x ∈ stack, P x) (hw : ∀ x ∈ walked, P x) :
    ∀ x ∈ (g.walkFrom work pred stack walked s).1, P x := by
  refine (g.walkFrom_invariant work pred
    (fun stack walked _ => (∀ x ∈ stack, P x) ∧ ∀ x ∈ walked, P x) ?_ ?_ ?_ stack walked s ⟨hs, hw⟩).2
  · exact fun t rest _ _ _ h => ⟨fun x hx => h.1 x (.tail _ hx), h.2⟩
  · intro t rest walked s _ hp ⟨hs, hw⟩
    have ht := hs t (.head _)
    refine ⟨fun x hx => ?_, fun x hx => (Finset.mem_insert.1 hx).elim (· ▸ ht) (hw x)⟩
    rcases List.mem_append.1 hx with hx | hx
    · rcases List.mem_append.1 hx with hx | hx
      exacts [hdep t x ht hx, hwork t s hp ht x hx]
    · exact hs x (.tail _ hx)
  · intro t rest walked s _ _ ⟨hs, hw⟩
    have ht := hs t (.head _)
    refine ⟨fun x hx => ?_, fun x hx => (Finset.mem_insert.1 hx).elim (· ▸ ht) (hw x)⟩
    rcases List.mem_append.1 hx with hx | hx
    exacts [hdep t x ht hx, hs x (.tail _ hx)]

/-- What dependencies reach from a target a walk visits is visited too, when the walk starts
with nothing visited. -/
theorem reach_mem_walkFrom (stack : List τ) (s : σ) {x t : τ}
    (hx : x ∈ (g.walkFrom work pred stack ∅ s).1) (hxt : Relation.ReflTransGen (DependsOn g) x t) :
    t ∈ (g.walkFrom work pred stack ∅ s).1 := by
  induction hxt with
  | refl => exact hx
  | tail _ hd ih =>
    exact g.dependencies_mem_walkFrom work pred stack ∅ s _ ih (Finset.not_mem_empty _) _ hd

/-! ## Walks that only accumulate

The walks of `configure_compile_context`, and the walks collecting the targets `configure_jvm`
returns, call a `work` that hands the walk no targets and only adds to what its state holds. -/

section Accumulate
variable {α : Type} (M : σ → α → Prop) (C : τ → α → Prop)

/-- A walk whose `work` hands it no targets visits what dependencies reach from its root. -/
theorem mem_walkFrom_iff (hnil : ∀ t s, (work t s).2 = []) (r : τ) (s : σ) (t : τ) :
    t ∈ (g.walkFrom work pred [r] ∅ s).1 ↔ Relation.ReflTransGen (DependsOn g) r t := by
  constructor
  · refine g.walkFrom_visits_only work pred _ (fun _ _ h hd => h.tail hd) ?_ [r] ∅ s
      (fun x hx => List.mem_singleton.1 hx ▸ .refl) (by simp) t
    intro t s _ _ x hx
    simp [hnil] at hx
  · exact g.reach_mem_walkFrom work pred [r] s
      (g.mem_walkFrom_of_mem work pred [r] ∅ s r (List.mem_singleton_self r))

/-- A walk whose `work` hands it no targets and makes the state hold `C t` besides what it held,
for each target `t` passing `pred`, ends holding what its state held and `C t` for each target
`t` passing `pred` that dependencies reach from the root. -/
theorem walk_holds_iff (hnil : ∀ t s, (work t s).2 = [])
    (hwork : ∀ t s x, pred t = true → (M (work t s).1 x ↔ M s x ∨ C t x)) (r : τ) (s : σ)
    (x : α) : M (g.walk work pred r s) x ↔
      M s x ∨ ∃ t, Relation.ReflTransGen (DependsOn g) r t ∧ pred t = true ∧ C t x := by
  have := g.walkFrom_invariant work pred
    (fun _ walked s' => ∀ x, M s' x ↔ M s x ∨ ∃ t ∈ walked, pred t = true ∧ C t x)
    (fun _ _ _ _ _ h => h)
    (fun t _ walked s' _ hp h x => by
      simp only [hwork t s' x hp, h x, Finset.exists_mem_insert, hp, true_and]
      exact or_assoc.trans (or_congr_right or_comm))
    (fun t _ walked s' _ hp h x => by simp [h x, Finset.exists_mem_insert, hp])
    [r] ∅ s (by simp) x
  rw [walk, this]
  simp only [mem_walkFrom_iff g work pred hnil, exists_prop]

/-- The same over the walks from each member of a list. -/
theorem foldl_walk_holds_iff (hnil : ∀ t s, (work t s).2 = [])
    (hwork : ∀ t s x, pred t = true → (M (work t s).1 x ↔ M s x ∨ C t x)) (L : List τ) (s : σ)
    (x : α) : M (L.foldl (fun s r => g.walk work pred r s) s) x ↔
      M s x ∨ ∃ r ∈ L, ∃ t, Relation.ReflTransGen (DependsOn g) r t ∧ pred t = true ∧ C t x := by
  induction L generalizing s with
  | nil => simp
  | cons r L ih =>
    rw [List.foldl_cons, ih, walk_holds_iff g work pred M C hnil hwork]
    simp only [List.mem_cons, exists_eq_or_imp, or_assoc]

end Accumulate

end WalkFrom

end BuildGraph
end PantsIde
