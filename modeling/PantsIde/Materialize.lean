import PantsIde.Project

/-! # Staging the jars: `map_internal_jars` and `map_external_jars`

`IdeGen.execute` stages the jars of the project under its work directory: `map_internal_jars`
copies the single jar of every `(target, base)` item of the `jars` product mapping into
`internal-libs`, and the source jars of the target into `internal-libsources`, adding one
`ClasspathEntry` per item; `map_external_jars` copies every resolved external jar, with its
sources and javadoc, into `external-libs`, `external-libsources` and `external-libjavadoc`.

The disk holds each file at the components its path resolves to from the current directory, so
two spellings of one file are one file (`Staging`). A run ends normally or raises, and either
way leaves the state it reached: nothing is rolled back (`Outcome`). The loops are
`Outcome.forLoop`; the two nested loops of `map_internal_jars` are one loop over the items of all
targets (`mapInternalJars_eq`), and a run that ends normally leaves the disk its copy log leaves
when replayed (`mapJars_disk`).

* `mapInternalJars_outcome`: when the copies the loops reach succeed, the run raises exactly when
  some target has an ambiguous mapping, and otherwise adds one entry per item, in order.
* `mapInternalJars_raised`: a run that raises `TaskError` keeps the entries and the copies of
  the items before the ambiguous one.
* `mapInternalJars_taskError`: the `TaskError` names the first ambiguous item, in loop order,
  and the jars or source jars that make it ambiguous.
* `mapJars_holds`: staged paths are built from file names alone; when the names are file names,
  the artifacts lie outside the staging directories and every staged file is copied from one
  artifact, each entry holds the artifacts it was made from, and the jar paths of the entries are
  distinct exactly when the staged names are. Otherwise a later copy overwrites an earlier one
  (`clash_mapJars`). -/

namespace PantsIde
open PosixPath

variable {τ α : Type}

/-! ## Raising -/

/-- How a run of the staging code ends: it returns `b`, or it raises `e`; either way with the
state `s` it leaves, since nothing is rolled back. -/
inductive Outcome (ε σ β : Type) where
  | ok (b : β) (s : σ)
  | raised (e : ε) (s : σ)

namespace Outcome
variable {ε σ β γ ξ : Type}

/-- Run `f` on what a run returns; a raise propagates. -/
def bind : Outcome ε σ β → (β → σ → Outcome ε σ γ) → Outcome ε σ γ
  | .ok b s, f => f b s
  | .raised e s, _ => .raised e s

/-- A `for` loop over `xs` carrying `b`; the first raise ends it. -/
def forLoop (f : ξ → β → σ → Outcome ε σ β) : List ξ → β → σ → Outcome ε σ β
  | [], b, s => .ok b s
  | x :: xs, b, s => (f x b s).bind (forLoop f xs)

/-- The state a run leaves. -/
def state : Outcome ε σ β → σ
  | .ok _ s => s
  | .raised _ s => s

/-- What a run raises, if it raises. -/
def error? : Outcome ε σ β → Option ε
  | .ok _ _ => none
  | .raised e _ => some e

theorem eq_ok_of_error?_eq_none {r : Outcome ε σ Unit} (h : r.error? = none) :
    r = .ok () r.state := by
  cases r with
  | ok b s => rfl
  | raised e s => cases h

theorem eq_raised_of_error? {r : Outcome ε σ β} {e : ε} (h : r.error? = some e) :
    r = .raised e r.state := by
  cases r <;> cases h; rfl

@[simp] theorem ok_bind {b : β} {s : σ} {f : β → σ → Outcome ε σ γ} : (ok b s).bind f = f b s :=
  rfl

@[simp] theorem raised_bind {e : ε} {s : σ} {f : β → σ → Outcome ε σ γ} :
    (raised e s : Outcome ε σ β).bind f = .raised e s :=
  rfl

theorem bind_eq_ok {r : Outcome ε σ β} {f : β → σ → Outcome ε σ γ} {c : γ} {s' : σ} :
    r.bind f = .ok c s' ↔ ∃ b s, r = .ok b s ∧ f b s = .ok c s' := by
  cases r with
  | ok b s => exact ⟨fun h => ⟨b, s, rfl, h⟩, fun ⟨_, _, h, h'⟩ => by cases h; exact h'⟩
  | raised e s => simp [bind]

theorem bind_eq_raised {r : Outcome ε σ β} {f : β → σ → Outcome ε σ γ} {e : ε} {s' : σ} :
    r.bind f = .raised e s' ↔ r = .raised e s' ∨ ∃ b s, r = .ok b s ∧ f b s = .raised e s' := by
  cases r with
  | ok b s => exact ⟨fun h => .inr ⟨b, s, rfl, h⟩, fun h => h.elim (fun h => by cases h)
      fun ⟨_, _, h, h'⟩ => by cases h; exact h'⟩
  | raised e s => simp [bind]

variable {f : ξ → β → σ → Outcome ε σ β}

@[simp] theorem forLoop_nil {b : β} {s : σ} : forLoop f [] b s = .ok b s := rfl

@[simp] theorem forLoop_cons {x : ξ} {xs : List ξ} {b : β} {s : σ} :
    forLoop f (x :: xs) b s = (f x b s).bind (forLoop f xs) := rfl

theorem bind_assoc (r : Outcome ε σ β) (g : β → σ → Outcome ε σ γ)
    (h : γ → σ → Outcome ε σ β) : (r.bind g).bind h = r.bind fun b s => (g b s).bind h := by
  cases r <;> rfl

theorem forLoop_append (xs ys : List ξ) (b : β) (s : σ) :
    forLoop f (xs ++ ys) b s = (forLoop f xs b s).bind (forLoop f ys) := by
  induction xs generalizing b s with
  | nil => rfl
  | cons x xs ih =>
    simp only [List.cons_append, forLoop_cons, bind_assoc]
    congr 1; funext b s; exact ih b s

/-- Two nested loops are one loop over the pairs of an outer and an inner element. -/
theorem forLoop_flatMap {ζ : Type} (items : ζ → List ξ) (g : ζ → ξ → β → σ → Outcome ε σ β)
    (zs : List ζ) (b : β) (s : σ) :
    forLoop (fun z b s => forLoop (g z) (items z) b s) zs b s =
      forLoop (fun x b s => g x.1 x.2 b s) (zs.flatMap fun z => (items z).map (z, ·)) b s := by
  induction zs generalizing b s with
  | nil => rfl
  | cons z zs ih =>
    have hinner : ∀ (l : List ξ) b s, forLoop (g z) l b s =
        forLoop (fun x b s => g x.1 x.2 b s) (l.map (z, ·)) b s := by
      intro l; induction l with
      | nil => intro _ _; rfl
      | cons x l ihl =>
        intro b s; simp only [forLoop_cons, List.map_cons]
        congr 1; funext b s; exact ihl b s
    simp only [forLoop_cons, List.flatMap_cons, forLoop_append, hinner]
    congr 1; funext b s; exact ih b s

/-- A loop that raises ran its body normally on a prefix, then raised on the next element. -/
theorem forLoop_eq_raised {xs : List ξ} {b : β} {s : σ} {e : ε} {s' : σ}
    (h : forLoop f xs b s = .raised e s') :
    ∃ pre x rest b₁ s₁, xs = pre ++ x :: rest ∧ forLoop f pre b s = .ok b₁ s₁ ∧
      f x b₁ s₁ = .raised e s' := by
  induction xs generalizing b s with
  | nil => cases h
  | cons x xs ih =>
    rcases bind_eq_raised.1 h with h | ⟨b₁, s₁, hx, h⟩
    · exact ⟨[], x, xs, b, s, rfl, rfl, h⟩
    · obtain ⟨pre, y, rest, b₂, s₂, rfl, hpre, hy⟩ := ih h
      exact ⟨x :: pre, y, rest, b₂, s₂, rfl, by simp [hx, hpre], hy⟩

/-- A property of the state that a run keeps and its continuation keeps holds of the state the
two leave, whether they return or raise. -/
theorem bind_holds (P : σ → Prop) {r : Outcome ε σ β} {g : β → σ → Outcome ε σ γ}
    (hr : P r.state) (hg : ∀ b s, P s → P (g b s).state) : P (r.bind g).state := by
  cases r with
  | ok b s => exact hg b s hr
  | raised e s => exact hr

/-- A property of the state that every round over an element of the loop keeps holds of the
state the loop leaves. -/
theorem forLoop_holds (P : σ → Prop) :
    ∀ {xs : List ξ}, (∀ x ∈ xs, ∀ b s, P s → P (f x b s).state) →
      ∀ (b : β) (s : σ), P s → P (forLoop f xs b s).state
  | [], _, _, _, h => h
  | x :: _, hf, b, s, h => bind_holds P (hf x (.head _) b s h) fun b s h =>
    forLoop_holds P (fun y hy => hf y (.tail _ hy)) b s h

end Outcome

/-! ## The disk and the errors -/

/-- What the staging code reads and writes: the files of the disk, each at the components its
path resolves to (`resolve`), with its content, and the project whose classpath entries it adds.
The tree has no symbolic links, so `.`, `..` and repeated separators resolve lexically and every
spelling of a file reaches its one entry. Directories are not recorded: `safe_mkdir` makes each
staging directory, and a copy under a file name (`FileNames`) goes into one of them. -/
structure Staging (τ α : Type) where
  disk : List (List Char) → Option α
  project : Project τ

/-- Why the staging code raises: the `TaskError`s of an ambiguous mapping, and what `shutil.copy`
raises: an `IOError` on a missing source, and `shutil.Error` when source and destination are one
file. -/
inductive StagingError (τ : Type) where
  | multipleJars (target : τ) (jars : List (List Char))
  | multipleSourceJars (target : τ) (jars : List (List Char))
  | missing (path : List Char)
  | sameFile (src dst : List Char)
deriving DecidableEq

/-- The error is a `TaskError`. -/
def StagingError.IsTaskError : StagingError τ → Prop
  | .multipleJars _ _ | .multipleSourceJars _ _ => True
  | .missing _ | .sameFile _ _ => False

/-- `repr` of a list of strings, as `%s` prints it. -/
def pyListRepr (xs : List (List Char)) : List Char :=
  ['['] ++ ", ".toList.intercalate (xs.map fun x => '\'' :: x ++ ['\'']) ++ [']']

/-- The message of the error, given `str(target)`. -/
def StagingError.message (str : τ → List Char) : StagingError τ → List Char
  | .multipleJars t jars =>
    "Unexpected mapping, multiple jars for ".toList ++ str t ++ ": ".toList ++ pyListRepr jars
  | .multipleSourceJars t jars =>
    "Unexpected mapping, multiple source jars for ".toList ++ str t ++ ": ".toList ++
      pyListRepr jars
  | .missing path => "[Errno 2] No such file or directory: ".toList ++ '\'' :: path ++ ['\'']
  | .sameFile src dst =>
    "`".toList ++ src ++ "` and `".toList ++ dst ++ "` are the same file".toList

/-- A step of the staging code. -/
abbrev Step (τ α β : Type) := Staging τ α → Outcome (StagingError τ) (Staging τ α) β

/-- The path `p` lies strictly below the directory `dir`. -/
def Below (dir p : List (List Char)) : Prop := dir <+: p ∧ dir ≠ p

instance (dir p : List (List Char)) : Decidable (Below dir p) :=
  inferInstanceAs (Decidable (_ ∧ _))

/-- `shutil.copy(src, dst)`, with `cwd` for `os.getcwd()`: the file `dst` names gets the content
of the file `src` names. It raises `shutil.Error` when the two name one file, and an `IOError`
when `src` names none. -/
def copy (cwd src dst : List Char) : Step τ α Unit := fun s =>
  match s.disk (resolve cwd src) with
  | some a =>
    if resolve cwd src = resolve cwd dst then .raised (.sameFile src dst) s
    else .ok () { s with disk := Function.update s.disk (resolve cwd dst) (some a) }
  | none => .raised (.missing src) s

/-- `safe_mkdir(dir, clean=True)`: `shutil.rmtree(dir, ignore_errors=True)`, then
`os.makedirs(dir)`; every file below the directory `dir` names is removed. -/
def safeMkdirClean (cwd dir : List Char) (s : Staging τ α) : Staging τ α :=
  { s with disk := fun p => if Below (resolve cwd dir) p then none else s.disk p }

/-! ## `map_internal_jars` -/

/-- A product mapping of one target, `products.get(name).get(target)`: its `(base, jars)` items in
the order `mappings.items()` yields them, with distinct bases. `None` and an empty dict are both
the empty list: `if mappings:` skips both. -/
structure Mapping where
  items : List (List Char × List (List Char))
  nodup : (items.map Prod.fst).Nodup

/-- The body of the loop over the `source_jars` mapping of `target`: copy the single source jar
of `base` into `internal-libsources`, and make its staged path `cp_source_jar`. -/
def stageSourceJar (cwd internalSourceJarDir : List Char) (target : τ)
    (item : List Char × List (List Char)) (_ : Option (List Char)) :
    Step τ α (Option (List Char)) := fun s =>
  match item.2 with
  | [jar] =>
    let cpSourceJar := join internalSourceJarDir jar
    (copy cwd (join item.1 jar) cpSourceJar s).bind fun _ s => .ok (some cpSourceJar) s
  | jars => .raised (.multipleSourceJars target jars) s

/-- The body of the loop over the `jars` mapping of `target`: copy the single jar of `base` into
`internal-libs`, run the loop over the source jars, and add the entry to
`project.internal_jars`. The entries are new objects, so the `OrderedSet` keeps each. -/
def stageJar (cwd internalJarDir internalSourceJarDir : List Char) (sourceJars : Mapping)
    (target : τ) (item : List Char × List (List Char)) (_ : Unit) : Step τ α Unit := fun s =>
  match item.2 with
  | [jar] =>
    let cpJar := join internalJarDir jar
    (copy cwd (join item.1 jar) cpJar s).bind fun _ s =>
      (Outcome.forLoop (stageSourceJar cwd internalSourceJarDir target) sourceJars.items none s).bind
        fun cpSourceJar s => .ok ()
          { s with project := { s.project with
              internalJars := s.project.internalJars ++ [⟨cpJar, cpSourceJar, none⟩] } }
  | jars => .raised (.multipleJars target jars) s

/-- `map_internal_jars(targets)`, with the `jars` and `source_jars` mappings of every target, and
`cwd` for `os.getcwd()`. -/
def mapInternalJars (cwd workDir : List Char) (jars sourceJars : τ → Mapping) (targets : List τ) :
    Step τ α Unit := fun s =>
  let internalJarDir := join workDir "internal-libs".toList
  let internalSourceJarDir := join workDir "internal-libsources".toList
  let s := safeMkdirClean cwd internalSourceJarDir (safeMkdirClean cwd internalJarDir s)
  Outcome.forLoop (fun target _ s => Outcome.forLoop
      (stageJar cwd internalJarDir internalSourceJarDir (sourceJars target) target)
      (jars target).items () s) targets () s

/-! ## `map_external_jars` -/

/-- An entry of `list_jar_dependencies(binary, confs=['default', 'sources', 'javadoc'])`: the
resolved path of each configuration it has. -/
structure JarEntry where
  default : Option (List Char)
  sources : Option (List Char)
  javadoc : Option (List Char)

/-- `if jar:` on `entry.get(conf)`: a path that is there and not empty. -/
def present : Option (List Char) → Option (List Char)
  | some p => if p.isEmpty then none else some p
  | none => none

/-- The sources or the javadoc of an external jar: copied into `dir` under its basename when the
entry has it, and its staged path. -/
def stageExtra (cwd dir : List Char) (path : Option (List Char)) :
    Step τ α (Option (List Char)) := fun s =>
  match present path with
  | some p =>
    let cp := join dir (basename p)
    (copy cwd p cp s).bind fun _ s => .ok (some cp) s
  | none => .ok none s

/-- The body of the loop of `map_external_jars`: copy the jar of an entry that has one into
`external-libs` under its basename, with its sources and javadoc, and add the entry to
`project.external_jars`. -/
def stageExternalJar (cwd externalJarDir externalSourceJarDir externalJavadocJarDir : List Char)
    (entry : JarEntry) (_ : Unit) : Step τ α Unit := fun s =>
  match present entry.default with
  | some jar =>
    let cpJar := join externalJarDir (basename jar)
    (copy cwd jar cpJar s).bind fun _ s =>
      (stageExtra cwd externalSourceJarDir entry.sources s).bind fun cpSourceJar s =>
        (stageExtra cwd externalJavadocJarDir entry.javadoc s).bind fun cpJavadocJar s => .ok ()
          { s with project := { s.project with
              externalJars := s.project.externalJars ++ [⟨cpJar, cpSourceJar, cpJavadocJar⟩] } }
  | none => .ok () s

/-- `map_external_jars()`, over the entries `list_jar_dependencies` returns. -/
def mapExternalJars (cwd workDir : List Char) (entries : List JarEntry) : Step τ α Unit := fun s =>
  let externalJarDir := join workDir "external-libs".toList
  let externalSourceJarDir := join workDir "external-libsources".toList
  let externalJavadocJarDir := join workDir "external-libjavadoc".toList
  let s := safeMkdirClean cwd externalJavadocJarDir
    (safeMkdirClean cwd externalSourceJarDir (safeMkdirClean cwd externalJarDir s))
  Outcome.forLoop
    (stageExternalJar cwd externalJarDir externalSourceJarDir externalJavadocJarDir) entries () s

/-- `self.map_internal_jars(targets)` then `self.map_external_jars()`, as `execute` runs them. -/
def mapJars (cwd workDir : List Char) (jars sourceJars : τ → Mapping) (targets : List τ)
    (entries : List JarEntry) : Step τ α Unit := fun s =>
  (mapInternalJars cwd workDir jars sourceJars targets s).bind fun _ s =>
    mapExternalJars cwd workDir entries s

/-! ## One copy -/

namespace Staging

/-- Every file of `s` is a file of `s'`. -/
def Grows (s s' : Staging τ α) : Prop := ∀ p, (s.disk p).isSome → (s'.disk p).isSome

theorem Grows.refl (s : Staging τ α) : s.Grows s := fun _ => id

theorem Grows.trans {s₁ s₂ s₃ : Staging τ α} (h₁ : s₁.Grows s₂) (h₂ : s₂.Grows s₃) :
    s₁.Grows s₃ :=
  fun p h => h₂ p (h₁ p h)

end Staging

section Copy
variable {cwd src dst : List Char} {s s' : Staging τ α} {e : StagingError τ} {u : Unit}

theorem copy_eq_ok (h : copy cwd src dst s = .ok u s') :
    ∃ a, s.disk (resolve cwd src) = some a ∧ resolve cwd src ≠ resolve cwd dst ∧
      s' = { s with disk := Function.update s.disk (resolve cwd dst) (some a) } := by
  unfold copy at h
  split at h
  · split at h
    · cases h
    · cases h; exact ⟨_, ‹_›, ‹_›, rfl⟩
  · cases h

/-- A copy that raises changes nothing and raises no `TaskError`: its source is missing, or is
its destination. -/
theorem copy_eq_raised (h : copy cwd src dst s = .raised e s') :
    s' = s ∧ ¬e.IsTaskError ∧
      (s.disk (resolve cwd src) = none ∨ resolve cwd src = resolve cwd dst) := by
  unfold copy at h
  split at h
  · split at h
    · cases h; exact ⟨rfl, id, .inr ‹_›⟩
    · cases h
  · cases h; exact ⟨rfl, id, .inl ‹_›⟩

theorem Staging.Grows.copy (h : copy cwd src dst s = .ok u s') :
    s.Grows s' ∧ (s'.disk (resolve cwd dst)).isSome := by
  obtain ⟨a, -, -, rfl⟩ := copy_eq_ok h
  refine ⟨fun p hp => ?_, by simp⟩
  by_cases hpd : p = resolve cwd dst
  · subst hpd; simp
  · simpa [Function.update_noteq hpd] using hp

end Copy

/-! ## One item of `map_internal_jars` -/

/-- The `(target, (base, jars))` items of the `jars` mappings of `targets`, in the order the loops
of `map_internal_jars` visit them. -/
def jarItems (jars : τ → Mapping) (targets : List τ) : List (τ × List Char × List (List Char)) :=
  targets.flatMap fun t => (jars t).items.map (t, ·)

/-- `map_internal_jars` gets through the item: one jar under its base, and one source jar under
every base of the target's `source_jars` mapping. -/
def Unambiguous (sourceJars : τ → Mapping) (x : τ × List Char × List (List Char)) : Prop :=
  x.2.2.length = 1 ∧ ∀ item ∈ (sourceJars x.1).items, item.2.length = 1

instance (sourceJars : τ → Mapping) (x : τ × List Char × List (List Char)) :
    Decidable (Unambiguous sourceJars x) :=
  inferInstanceAs (Decidable (_ ∧ _))

/-- Some target has a non-empty `jars` mapping in which a base maps to other than one jar, or a
non-empty `jars` mapping and a `source_jars` mapping in which a base maps to other than one
source jar. -/
def Ambiguous (jars sourceJars : τ → Mapping) (targets : List τ) : Prop :=
  ∃ t ∈ targets, (jars t).items ≠ [] ∧
    ((∃ item ∈ (jars t).items, item.2.length ≠ 1) ∨ ∃ item ∈ (sourceJars t).items, item.2.length ≠ 1)

/-- `cp_source_jar` after the loop over a target's source jars: the staged path of the last. -/
def lastSourceJar (dir : List Char) (m : Mapping) : Option (List Char) :=
  m.items.foldl (fun _ item => item.2.head?.map (join dir)) none

/-- The entry `map_internal_jars` adds for the item `x`, whose single jar is `jar`. -/
def internalEntry (workDir : List Char) (sourceJars : τ → Mapping)
    (x : τ × List Char × List (List Char)) (jar : List Char) : ClasspathEntry :=
  ⟨join (join workDir "internal-libs".toList) jar,
    lastSourceJar (join workDir "internal-libsources".toList) (sourceJars x.1), none⟩

/-- The copies `(staged path, artifact)` the loop over the source jars of a target reaches: one
per base, up to the first base with other than one source jar. -/
def reachedSourceCopies (S : List Char) :
    List (List Char × List (List Char)) → List (List Char × List Char)
  | [] => []
  | item :: items => match item.2 with
    | [j] => (join S j, join item.1 j) :: reachedSourceCopies S items
    | _ => []

/-- The copies one item of `map_internal_jars` reaches: its jar, when it has one, then the source
jars of the target the inner loop reaches. -/
def reachedJarCopies (I S : List Char) (m : Mapping) (x : List Char × List (List Char)) :
    List (List Char × List Char) :=
  match x.2 with
  | [jar] => (join I jar, join x.1 jar) :: reachedSourceCopies S m.items
  | _ => []

/-- The copies the loop of `map_internal_jars` reaches over the items `xs`: those of every item up
to the first ambiguous one, then those that one makes before it raises. -/
def reachedCopies (I S : List Char) (sourceJars : τ → Mapping) :
    List (τ × List Char × List (List Char)) → List (List Char × List Char)
  | [] => []
  | x :: xs => reachedJarCopies I S (sourceJars x.1) x.2 ++
    if Unambiguous sourceJars x then reachedCopies I S sourceJars xs else []

theorem ambiguous_iff {jars sourceJars : τ → Mapping} {targets : List τ} :
    Ambiguous jars sourceJars targets ↔ ∃ x ∈ jarItems jars targets, ¬Unambiguous sourceJars x := by
  simp only [Ambiguous, jarItems, List.mem_flatMap, List.mem_map, Unambiguous, not_and_or,
    not_forall, exists_prop]
  constructor
  · rintro ⟨t, ht, hne, ⟨item, hi, hlen⟩ | ⟨item, hi, hlen⟩⟩
    · exact ⟨(t, item), ⟨t, ht, item, hi, rfl⟩, .inl hlen⟩
    · obtain ⟨i, hi'⟩ := List.exists_mem_of_ne_nil _ hne
      exact ⟨(t, i), ⟨t, ht, i, hi', rfl⟩, .inr ⟨item, hi, hlen⟩⟩
  · rintro ⟨_, ⟨t, ht, i, hi, rfl⟩, hlen | ⟨item, hitem, hlen⟩⟩
    · exact ⟨t, ht, List.ne_nil_of_mem hi, .inl ⟨i, hi, hlen⟩⟩
    · exact ⟨t, ht, List.ne_nil_of_mem hi, .inr ⟨item, hitem, hlen⟩⟩

/-- The state the loops of `map_internal_jars` start from: `internal-libs` and
`internal-libsources` cleaned. -/
def cleanInternal (cwd workDir : List Char) (s : Staging τ α) : Staging τ α :=
  safeMkdirClean cwd (join workDir "internal-libsources".toList)
    (safeMkdirClean cwd (join workDir "internal-libs".toList) s)

/-- Every copy the loops of `map_internal_jars` reach succeeds: its artifact is a file of the disk
they start from, and another file than the one it is copied to. -/
def SourcesPresent (cwd workDir : List Char) (jars sourceJars : τ → Mapping) (targets : List τ)
    (s : Staging τ α) : Prop :=
  ∀ c ∈ reachedCopies (join workDir "internal-libs".toList)
      (join workDir "internal-libsources".toList) sourceJars (jarItems jars targets),
    ((cleanInternal cwd workDir s).disk (resolve cwd c.2)).isSome ∧ resolve cwd c.2 ≠ resolve cwd c.1

/-- The two loops of `map_internal_jars` are one loop over the items, from the cleaned
directories. -/
theorem mapInternalJars_eq (cwd workDir : List Char) (jars sourceJars : τ → Mapping)
    (targets : List τ) (s : Staging τ α) :
    mapInternalJars cwd workDir jars sourceJars targets s = Outcome.forLoop
      (fun x _ s => stageJar cwd (join workDir "internal-libs".toList)
        (join workDir "internal-libsources".toList) (sourceJars x.1) x.1 x.2 () s)
      (jarItems jars targets) () (cleanInternal cwd workDir s) :=
  Outcome.forLoop_flatMap _ _ _ _ _

section Reached
variable {I S : List Char} {j : List Char} {item : List Char × List (List Char)}

theorem mem_reachedSourceCopies {pre rest : List (List Char × List (List Char))}
    (hpre : ∀ i ∈ pre, i.2.length = 1) (hj : item.2 = [j]) :
    (join S j, join item.1 j) ∈ reachedSourceCopies S (pre ++ item :: rest) := by
  induction pre with
  | nil => simp [reachedSourceCopies, hj]
  | cons i pre ih =>
    obtain ⟨k, hk⟩ := List.length_eq_one.1 (hpre i (.head _))
    simp only [List.cons_append, reachedSourceCopies, hk]
    exact .tail _ (ih fun i' hi' => hpre i' (.tail _ hi'))

/-- A copy of an item that the items before it let the loop reach is reached. -/
theorem mem_reachedCopies {sourceJars : τ → Mapping} {pre rest : List (τ × List Char × List (List Char))}
    {x : τ × List Char × List (List Char)} (hpre : ∀ y ∈ pre, Unambiguous sourceJars y)
    {c : List Char × List Char} (hc : c ∈ reachedJarCopies I S (sourceJars x.1) x.2) :
    c ∈ reachedCopies I S sourceJars (pre ++ x :: rest) := by
  induction pre with
  | nil => exact List.mem_append_left _ hc
  | cons y pre ih =>
    rw [List.cons_append, reachedCopies, if_pos (hpre y (.head _))]
    exact List.mem_append_right _ (ih fun y' hy' => hpre y' (.tail _ hy'))

end Reached

section Item
variable {cwd I S : List Char} {t : τ} {s s' : Staging τ α} {e : StagingError τ}

theorem stageSourceJar_eq_ok {item : List Char × List (List Char)} {c c' : Option (List Char)}
    (h : stageSourceJar cwd S t item c s = .ok c' s') :
    ∃ jar, item.2 = [jar] ∧ c' = some (join S jar) ∧ s.Grows s' ∧ s'.project = s.project := by
  rcases item with ⟨base, _ | ⟨jar, _ | ⟨k, js⟩⟩⟩
  · cases h
  · obtain ⟨_, s₁, hc, h⟩ := Outcome.bind_eq_ok.1 h
    cases h
    obtain ⟨a, -, -, rfl⟩ := copy_eq_ok hc
    exact ⟨jar, rfl, rfl, (Staging.Grows.copy hc).1, rfl⟩
  · cases h

theorem stageSourceJar_eq_raised {item : List Char × List (List Char)} {c : Option (List Char)}
    (h : stageSourceJar cwd S t item c s = .raised e s') :
    s' = s ∧ ((e.IsTaskError ∧ item.2.length ≠ 1) ∨ (¬e.IsTaskError ∧ ∃ jar, item.2 = [jar] ∧
      (s.disk (resolve cwd (join item.1 jar)) = none ∨
        resolve cwd (join item.1 jar) = resolve cwd (join S jar)))) := by
  rcases item with ⟨base, _ | ⟨jar, _ | ⟨k, js⟩⟩⟩
  · cases h; exact ⟨rfl, .inl ⟨trivial, by simp⟩⟩
  · rcases Outcome.bind_eq_raised.1 h with hc | ⟨_, _, _, h⟩
    · obtain ⟨rfl, hnt, hfail⟩ := copy_eq_raised hc
      exact ⟨rfl, .inr ⟨hnt, jar, rfl, hfail⟩⟩
    · cases h
  · cases h; exact ⟨rfl, .inl ⟨trivial, by simp⟩⟩

/-- The `TaskError` of one base of the `source_jars` mapping names the target and the source
jars of the base. -/
theorem stageSourceJar_taskError {item : List Char × List (List Char)} {c : Option (List Char)}
    (h : stageSourceJar cwd S t item c s = .raised e s') (he : e.IsTaskError) :
    item.2.length ≠ 1 ∧ e = .multipleSourceJars t item.2 := by
  rcases item with ⟨base, _ | ⟨jar, _ | ⟨k, js⟩⟩⟩
  · cases h; exact ⟨by simp, rfl⟩
  · rcases Outcome.bind_eq_raised.1 h with hc | ⟨_, _, _, h⟩
    · exact absurd he (copy_eq_raised hc).2.1
    · cases h
  · cases h; exact ⟨by simp, rfl⟩

/-- The loop over a target's source jars that ends normally: every base has one source jar,
and `cp_source_jar` is the staged path of the last. -/
theorem forLoop_stageSourceJar_ok {items : List (List Char × List (List Char))}
    {c c' : Option (List Char)}
    (h : Outcome.forLoop (stageSourceJar cwd S t) items c s = .ok c' s') :
    (∀ item ∈ items, item.2.length = 1) ∧
      c' = items.foldl (fun _ item => item.2.head?.map (join S)) c ∧ s.Grows s' ∧
      s'.project = s.project := by
  induction items generalizing c s with
  | nil => cases h; exact ⟨by simp, rfl, .refl _, rfl⟩
  | cons item items ih =>
    obtain ⟨c₁, s₁, h₁, h⟩ := Outcome.bind_eq_ok.1 h
    obtain ⟨jar, hjar, rfl, hg, hp⟩ := stageSourceJar_eq_ok h₁
    obtain ⟨hall, rfl, hg', hp'⟩ := ih h
    exact ⟨List.forall_mem_cons.2 ⟨by simp [hjar], hall⟩, by simp [hjar], hg.trans hg', hp'.trans hp⟩

/-- The loop over a target's source jars that raises: at a base with other than one source jar,
or at a reached copy whose source is missing or is its destination. -/
theorem forLoop_stageSourceJar_raised {items : List (List Char × List (List Char))}
    {c : Option (List Char)}
    (h : Outcome.forLoop (stageSourceJar cwd S t) items c s = .raised e s') :
    s.Grows s' ∧ s'.project = s.project ∧ ((e.IsTaskError ∧ ∃ item ∈ items, item.2.length ≠ 1) ∨
      (¬e.IsTaskError ∧ ∃ c ∈ reachedSourceCopies S items,
        s'.disk (resolve cwd c.2) = none ∨ resolve cwd c.2 = resolve cwd c.1)) := by
  obtain ⟨pre, item, rest, c₁, s₁, rfl, hpre, hitem⟩ := Outcome.forLoop_eq_raised h
  obtain ⟨hall, -, hg, hp⟩ := forLoop_stageSourceJar_ok hpre
  obtain ⟨rfl, htask | ⟨hnt, jar, hjar, hfail⟩⟩ := stageSourceJar_eq_raised hitem
  · exact ⟨hg, hp, .inl ⟨htask.1, item, by simp, htask.2⟩⟩
  · exact ⟨hg, hp, .inr ⟨hnt, _, mem_reachedSourceCopies hall hjar, hfail⟩⟩

/-- The `TaskError` of the loop over a target's source jars names the first base, in `items()`
order, with other than one source jar. -/
theorem forLoop_stageSourceJar_taskError {items : List (List Char × List (List Char))}
    {c : Option (List Char)}
    (h : Outcome.forLoop (stageSourceJar cwd S t) items c s = .raised e s')
    (he : e.IsTaskError) :
    ∃ pre item rest, items = pre ++ item :: rest ∧ (∀ i ∈ pre, i.2.length = 1) ∧
      item.2.length ≠ 1 ∧ e = .multipleSourceJars t item.2 := by
  obtain ⟨pre, item, rest, c₁, s₁, rfl, hpre, hitem⟩ := Outcome.forLoop_eq_raised h
  exact ⟨pre, item, rest, rfl, (forLoop_stageSourceJar_ok hpre).1, stageSourceJar_taskError hitem he⟩

/-- One item of `map_internal_jars` that ends normally: one jar, one source jar under every base
of the target, the jar staged, and the entry added. -/
theorem stageJar_eq_ok {m : Mapping} {x : List Char × List (List Char)} {u : Unit}
    (h : stageJar cwd I S m t x () s = .ok u s') :
    ∃ jar, x.2 = [jar] ∧ (∀ item ∈ m.items, item.2.length = 1) ∧ s.Grows s' ∧
      (s'.disk (resolve cwd (join I jar))).isSome ∧
      s'.project = { s.project with internalJars := s.project.internalJars ++
        [⟨join I jar, m.items.foldl (fun _ item => item.2.head?.map (join S)) none, none⟩] } := by
  rcases x with ⟨base, _ | ⟨jar, _ | ⟨k, js⟩⟩⟩
  · cases h
  · obtain ⟨_, s₁, hc, h⟩ := Outcome.bind_eq_ok.1 h
    obtain ⟨c, s₂, hloop, h⟩ := Outcome.bind_eq_ok.1 h
    cases h
    obtain ⟨hg₁, hjar⟩ := Staging.Grows.copy hc
    obtain ⟨hall, rfl, hg₂, hp⟩ := forLoop_stageSourceJar_ok hloop
    obtain ⟨a, -, -, rfl⟩ := copy_eq_ok hc
    exact ⟨jar, rfl, hall, hg₁.trans hg₂, hg₂ _ hjar, by rw [hp]⟩
  · cases h

/-- One item of `map_internal_jars` that raises: a `TaskError` when it is ambiguous, and otherwise
at a reached copy whose source is missing or is its destination. -/
theorem stageJar_eq_raised {m : Mapping} {x : List Char × List (List Char)}
    (h : stageJar cwd I S m t x () s = .raised e s') :
    s.Grows s' ∧ s'.project = s.project ∧
      ((e.IsTaskError ∧ ¬(x.2.length = 1 ∧ ∀ item ∈ m.items, item.2.length = 1)) ∨
        (¬e.IsTaskError ∧ ∃ c ∈ reachedJarCopies I S m x,
          s'.disk (resolve cwd c.2) = none ∨ resolve cwd c.2 = resolve cwd c.1)) := by
  rcases x with ⟨base, _ | ⟨jar, _ | ⟨k, js⟩⟩⟩
  · cases h; exact ⟨.refl _, rfl, .inl ⟨trivial, by simp⟩⟩
  · rcases Outcome.bind_eq_raised.1 h with hc | ⟨_, s₁, hc, h⟩
    · obtain ⟨rfl, hnt, hfail⟩ := copy_eq_raised hc
      exact ⟨.refl _, rfl, .inr ⟨hnt, _, .head _, hfail⟩⟩
    · rcases Outcome.bind_eq_raised.1 h with hloop | ⟨_, _, _, h⟩
      · obtain ⟨hg₁, -⟩ := Staging.Grows.copy hc
        obtain ⟨a, -, -, rfl⟩ := copy_eq_ok hc
        obtain ⟨hg₂, hp, htask | ⟨hnt, c, hc', hfail⟩⟩ := forLoop_stageSourceJar_raised hloop
        · obtain ⟨item, hitem, hlen⟩ := htask.2
          exact ⟨hg₁.trans hg₂, hp, .inl ⟨htask.1, fun h => hlen (h.2 item hitem)⟩⟩
        · exact ⟨hg₁.trans hg₂, hp, .inr ⟨hnt, c, .tail _ hc', hfail⟩⟩
      · cases h
  · cases h; exact ⟨.refl _, rfl, .inl ⟨trivial, by simp⟩⟩

/-- The `TaskError` of one item names its target: with the jars of its base when they are not
one jar, and otherwise with the source jars of the target's first ambiguous base. -/
theorem stageJar_taskError {m : Mapping} {x : List Char × List (List Char)}
    (h : stageJar cwd I S m t x () s = .raised e s') (he : e.IsTaskError) :
    (x.2.length ≠ 1 ∧ e = .multipleJars t x.2) ∨
      (x.2.length = 1 ∧ ∃ pre item rest, m.items = pre ++ item :: rest ∧
        (∀ i ∈ pre, i.2.length = 1) ∧ item.2.length ≠ 1 ∧ e = .multipleSourceJars t item.2) := by
  rcases x with ⟨base, _ | ⟨jar, _ | ⟨k, js⟩⟩⟩
  · cases h; exact .inl ⟨by simp, rfl⟩
  · rcases Outcome.bind_eq_raised.1 h with hc | ⟨_, _, _, h⟩
    · exact absurd he (copy_eq_raised hc).2.1
    · rcases Outcome.bind_eq_raised.1 h with hloop | ⟨_, _, _, h⟩
      · exact .inr ⟨rfl, forLoop_stageSourceJar_taskError hloop he⟩
      · cases h
  · cases h; exact .inl ⟨by simp, rfl⟩

end Item

/-! ## The loop of `map_internal_jars` -/

section Loop
variable {cwd I S : List Char} {sourceJars : τ → Mapping} {s s' : Staging τ α}

/-- The loop over the items that ends normally: every item is unambiguous and adds its entry,
whose jar is staged. -/
theorem forLoop_stageJar_ok {xs : List (τ × List Char × List (List Char))}
    (h : Outcome.forLoop (fun x _ s => stageJar cwd I S (sourceJars x.1) x.1 x.2 () s) xs () s =
      .ok () s') :
    (∀ x ∈ xs, Unambiguous sourceJars x) ∧ s.Grows s' ∧ ∃ entries,
      s'.project = { s.project with internalJars := s.project.internalJars ++ entries } ∧
      List.Forall₂ (fun x e => ∃ jar, x.2.2 = [jar] ∧
        e = ⟨join I jar, lastSourceJar S (sourceJars x.1), none⟩) xs entries ∧
      ∀ e ∈ entries, (s'.disk (resolve cwd e.jar)).isSome := by
  induction xs generalizing s with
  | nil => cases h; exact ⟨by simp, .refl _, [], by simp, .nil, by simp⟩
  | cons x xs ih =>
    obtain ⟨_, s₁, h₁, h⟩ := Outcome.bind_eq_ok.1 h
    obtain ⟨jar, hjar, hall, hg₁, hfile, hp₁⟩ := stageJar_eq_ok h₁
    obtain ⟨hun, hg₂, entries, hp₂, hfa, hfiles⟩ := ih h
    refine ⟨List.forall_mem_cons.2 ⟨⟨by simp [hjar], hall⟩, hun⟩, hg₁.trans hg₂,
      ⟨join I jar, lastSourceJar S (sourceJars x.1), none⟩ :: entries, ?_, .cons ⟨jar, hjar, rfl⟩ hfa,
      List.forall_mem_cons.2 ⟨hg₂ _ hfile, hfiles⟩⟩
    rw [hp₂, hp₁]
    simp [lastSourceJar]

end Loop

/-! ## Where the staging code writes -/

/-- The names of the staging directories of `map_internal_jars` under the work directory. -/
def internalNames : List (List Char) := ["internal-libs".toList, "internal-libsources".toList]

/-- The names of the staging directories of `map_external_jars` under the work directory. -/
def externalNames : List (List Char) :=
  ["external-libs".toList, "external-libsources".toList, "external-libjavadoc".toList]

/-- The file `p` lies in a staging directory of the work directory `W`. -/
def Staged (cwd W : List Char) (p : List (List Char)) : Prop :=
  ∃ n ∈ internalNames ++ externalNames, Below (resolve cwd (join W n)) p

instance (cwd W : List Char) (p : List (List Char)) : Decidable (Staged cwd W p) :=
  inferInstanceAs (Decidable (∃ n ∈ internalNames ++ externalNames, _))

/-- The staging names are distinct names, so the staging directories are distinct children of the
work directory. -/
theorem stagingNames_names : (∀ n ∈ internalNames ++ externalNames, IsName n) ∧
    (internalNames ++ externalNames).Nodup := by
  decide

section Dirs
variable {cwd W n n₁ n₂ j p : List Char} {k : List (List Char)}

theorem sep_not_mem_basename : '/' ∉ basename p := fun h => by
  have := List.mem_takeWhile_imp (List.mem_reverse.1 h)
  simp at this

theorem basename_head? : (basename p).head? ≠ some '/' := fun h =>
  sep_not_mem_basename (List.mem_of_mem_head? h)

theorem below_append {d q : List (List Char)} (hq : q ≠ []) : Below d (d ++ q) :=
  ⟨List.prefix_append _ _, fun h => hq (by simpa using h)⟩

/-- A file name joined to a directory lies below it. -/
theorem below_join_name (hj : IsName j) : Below (resolve cwd W) (resolve cwd (join W j)) := by
  rw [resolve_join_name cwd _ hj]
  exact below_append (List.cons_ne_nil _ _)

/-- A file is below one staging directory at most. -/
theorem below_staging_unique (hn₁ : n₁ ∈ internalNames ++ externalNames)
    (hn₂ : n₂ ∈ internalNames ++ externalNames) (hk₁ : Below (resolve cwd (join W n₁)) k)
    (hk₂ : Below (resolve cwd (join W n₂)) k) : n₁ = n₂ := by
  rw [resolve_join_name cwd W (stagingNames_names.1 n₁ hn₁)] at hk₁
  rw [resolve_join_name cwd W (stagingNames_names.1 n₂ hn₂)] at hk₂
  obtain ⟨q₁, rfl⟩ := hk₁.1
  obtain ⟨q₂, h⟩ := hk₂.1
  simp only [List.append_assoc, List.singleton_append, List.append_cancel_left_eq,
    List.cons.injEq] at h
  exact h.1.symm

/-- A file below a directory of `map_internal_jars` is below none of `map_external_jars`. -/
theorem below_internal (hn : n ∈ internalNames) (hk : Below (resolve cwd (join W n)) k) :
    ∀ m ∈ externalNames, ¬Below (resolve cwd (join W m)) k := fun _ hm hkm =>
  List.disjoint_of_nodup_append stagingNames_names.2 hn
    (below_staging_unique (List.mem_append_left _ hn) (List.mem_append_right _ hm) hk hkm ▸ hm)

theorem join_right_inj (h₁ : n₁.head? ≠ some '/') (h₂ : n₂.head? ≠ some '/') :
    join W n₁ = join W n₂ ↔ n₁ = n₂ := by
  rw [join_eq_join_nil_append W h₁, join_eq_join_nil_append W h₂]
  exact List.append_right_inj _

/-- Joining relative names to one directory keeps them apart. -/
theorem nodup_map_join_iff {names : List (List Char)} (h : ∀ n ∈ names, n.head? ≠ some '/') :
    (names.map (join W)).Nodup ↔ names.Nodup :=
  ⟨List.Nodup.of_map _, List.Nodup.map_on fun a ha b hb hab =>
    (join_right_inj (h a ha) (h b hb)).1 hab⟩

end Dirs

theorem safeMkdirClean_disk {cwd dir : List Char} {k : List (List Char)} {s : Staging τ α}
    (h : ¬Below (resolve cwd dir) k) : (safeMkdirClean cwd dir s).disk k = s.disk k :=
  if_neg h

/-! ## The copies a run makes

Every file the staging code writes is a copy. A run that ends normally leaves the disk that its
copies, `(staged path, artifact)` pairs in the order it makes them, leave when replayed one after
another from the disk with the staging directories cleaned. -/

/-- The disk after the copies `(staged path, artifact)` of `log`, one after another, from `d`,
every path resolved from `cwd`. -/
def replay (cwd : List Char) (log : List (List Char × List Char))
    (d : List (List Char) → Option α) : List (List Char) → Option α :=
  log.foldl (fun d c => Function.update d (resolve cwd c.1) (d (resolve cwd c.2))) d

section Replay
variable {cwd : List Char} {log log' : List (List Char × List Char)}
  {d : List (List Char) → Option α} {k v : List (List Char)}

@[simp] theorem replay_nil : replay cwd [] d = d := rfl

@[simp] theorem replay_cons {c : List Char × List Char} :
    replay cwd (c :: log) d =
      replay cwd log (Function.update d (resolve cwd c.1) (d (resolve cwd c.2))) := rfl

theorem replay_append : replay cwd (log ++ log') d = replay cwd log' (replay cwd log d) :=
  List.foldl_append _ _ _ _

/-- A file no copy writes keeps what it held. -/
theorem replay_of_not_mem (hk : ∀ c ∈ log, resolve cwd c.1 ≠ k) : replay cwd log d k = d k := by
  induction log generalizing d with
  | nil => rfl
  | cons c log ih =>
    rw [replay_cons, ih fun c' hc' => hk c' (.tail _ hc'),
      Function.update_noteq (hk c (.head _)).symm]

/-- A file some copy writes, which every copy to it copies from the file `v` and no copy writes,
holds what `v` held. -/
theorem replay_of_mem (hk : ∃ c ∈ log, resolve cwd c.1 = k)
    (hfun : ∀ c ∈ log, resolve cwd c.1 = k → resolve cwd c.2 = v)
    (hv : ∀ c ∈ log, resolve cwd c.1 ≠ v) : replay cwd log d k = d v := by
  induction log generalizing d with
  | nil => obtain ⟨c, hc, -⟩ := hk; cases hc
  | cons c log ih =>
    rw [replay_cons]
    by_cases hl : ∃ c' ∈ log, resolve cwd c'.1 = k
    · rw [ih hl (fun c' h => hfun c' (.tail _ h)) (fun c' h => hv c' (.tail _ h)),
        Function.update_noteq (hv c (.head _)).symm]
    · push_neg at hl
      have hkc : resolve cwd c.1 = k := by
        obtain ⟨c', hc', hk'⟩ := hk
        rcases List.mem_cons.1 hc' with rfl | hc'
        exacts [hk', absurd hk' (hl c' hc')]
      rw [replay_of_not_mem hl, ← hkc, Function.update_same, hfun c (.head _) hkc]

/-- Two disks that agree on a set of files containing every artifact a log copies from agree on
that set after the log: each copy writes both disks alike. -/
theorem replay_agree (A : List (List Char) → Prop) {d₁ d₂ : List (List Char) → Option α}
    (hA : ∀ k, A k → d₁ k = d₂ k) (hsrc : ∀ c ∈ log, A (resolve cwd c.2)) (hk : A k) :
    replay cwd log d₁ k = replay cwd log d₂ k := by
  induction log generalizing A d₁ d₂ with
  | nil => exact hA k hk
  | cons c log ih =>
    rw [replay_cons, replay_cons]
    refine ih (fun k => A k ∨ k = resolve cwd c.1) (fun k' hk' => ?_)
      (fun c' hc' => .inl (hsrc c' (.tail _ hc'))) (.inl hk)
    by_cases hkc : k' = resolve cwd c.1
    · subst hkc
      rw [Function.update_same, Function.update_same, hA _ (hsrc c (.head _))]
    · rw [Function.update_noteq hkc, Function.update_noteq hkc]
      exact hA k' (hk'.resolve_right hkc)

end Replay

theorem copy_disk {cwd src dst : List Char} {s s' : Staging τ α} {u : Unit}
    (h : copy cwd src dst s = .ok u s') : s'.disk = replay cwd [(dst, src)] s.disk := by
  obtain ⟨a, ha, -, rfl⟩ := copy_eq_ok h
  show Function.update s.disk (resolve cwd dst) (some a) =
    Function.update s.disk (resolve cwd dst) (s.disk (resolve cwd src))
  rw [ha]

/-- A loop each of whose rounds, when it ends normally, replays its copies `copies x`: a run of
the loop that ends normally replays the copies of its rounds, in order. -/
theorem forLoop_replay {ξ β : Type} {cwd : List Char} {f : ξ → β → Step τ α β}
    (copies : ξ → List (List Char × List Char)) {xs : List ξ} {b b' : β} {s s' : Staging τ α}
    (h : Outcome.forLoop f xs b s = .ok b' s')
    (hround : ∀ x b s b' s', f x b s = .ok b' s' → s'.disk = replay cwd (copies x) s.disk) :
    s'.disk = replay cwd (xs.flatMap copies) s.disk := by
  induction xs generalizing b s with
  | nil => cases h; rfl
  | cons x xs ih =>
    obtain ⟨_, s₁, h₁, h⟩ := Outcome.bind_eq_ok.1 h
    rw [ih h, hround x _ _ _ _ h₁, List.flatMap_cons, replay_append]

/-- The copies of the loop over the source jars of a target: each source jar into `S`. -/
def sourceJarCopies (S : List Char) (m : Mapping) : List (List Char × List Char) :=
  m.items.flatMap fun item => item.2.map fun j => (join S j, join item.1 j)

/-- The copies of one item of `map_internal_jars`: its jar into `I`, then the source jars of the
target into `S`. -/
def jarCopies (I S : List Char) (m : Mapping) (x : List Char × List (List Char)) :
    List (List Char × List Char) :=
  x.2.map (fun jar => (join I jar, join x.1 jar)) ++ sourceJarCopies S m

/-- The copies of `map_internal_jars`. -/
def internalCopies (workDir : List Char) (jars sourceJars : τ → Mapping) (targets : List τ) :
    List (List Char × List Char) :=
  (jarItems jars targets).flatMap fun x => jarCopies (join workDir "internal-libs".toList)
    (join workDir "internal-libsources".toList) (sourceJars x.1) x.2

/-- The copy of the sources or the javadoc of an external jar into `dir`, when the entry has
them. -/
def extraCopies (dir : List Char) (path : Option (List Char)) : List (List Char × List Char) :=
  ((present path).map fun q => (join dir (basename q), q)).toList

/-- The copies of one round of `map_external_jars`. -/
def externalJarCopies (E ES EJ : List Char) (en : JarEntry) : List (List Char × List Char) :=
  match present en.default with
  | some jar => (join E (basename jar), jar) :: (extraCopies ES en.sources ++ extraCopies EJ en.javadoc)
  | none => []

/-- The copies of `map_external_jars`. -/
def externalCopies (workDir : List Char) (entries : List JarEntry) : List (List Char × List Char) :=
  entries.flatMap (externalJarCopies (join workDir "external-libs".toList)
    (join workDir "external-libsources".toList) (join workDir "external-libjavadoc".toList))

/-- The copies of `map_internal_jars` then `map_external_jars`. -/
def mapJarsCopies (workDir : List Char) (jars sourceJars : τ → Mapping) (targets : List τ)
    (entries : List JarEntry) : List (List Char × List Char) :=
  internalCopies workDir jars sourceJars targets ++ externalCopies workDir entries

/-- The state the loop of `map_external_jars` starts from: its three directories cleaned. -/
def cleanExternal (cwd workDir : List Char) (s : Staging τ α) : Staging τ α :=
  safeMkdirClean cwd (join workDir "external-libjavadoc".toList)
    (safeMkdirClean cwd (join workDir "external-libsources".toList)
      (safeMkdirClean cwd (join workDir "external-libs".toList) s))

/-- The loop of `map_external_jars` runs from the cleaned directories. -/
theorem mapExternalJars_eq (cwd workDir : List Char) (entries : List JarEntry)
    (s : Staging τ α) :
    mapExternalJars cwd workDir entries s = Outcome.forLoop
      (stageExternalJar cwd (join workDir "external-libs".toList)
        (join workDir "external-libsources".toList) (join workDir "external-libjavadoc".toList))
      entries () (cleanExternal cwd workDir s) :=
  rfl

/-- The entry `map_external_jars` adds for an entry whose jar is `jar`. -/
def externalEntry (workDir : List Char) (en : JarEntry) (jar : List Char) : ClasspathEntry :=
  ⟨join (join workDir "external-libs".toList) (basename jar),
    (present en.sources).map fun q => join (join workDir "external-libsources".toList) (basename q),
    (present en.javadoc).map fun q => join (join workDir "external-libjavadoc".toList) (basename q)⟩

/-! ## What one round copies -/

section Rounds
variable {cwd I S E ES EJ : List Char} {t : τ} {s s' : Staging τ α} {u : Unit}

theorem stageSourceJar_disk {item : List Char × List (List Char)} {c c' : Option (List Char)}
    (h : stageSourceJar cwd S t item c s = .ok c' s') :
    s'.disk = replay cwd (item.2.map fun j => (join S j, join item.1 j)) s.disk := by
  obtain ⟨jar, hjar, -⟩ := stageSourceJar_eq_ok h
  rcases item with ⟨base, _⟩
  obtain rfl := hjar
  obtain ⟨_, s₁, hc, h⟩ := Outcome.bind_eq_ok.1 h
  cases h
  exact copy_disk hc

theorem stageJar_disk {m : Mapping} {x : List Char × List (List Char)}
    (h : stageJar cwd I S m t x () s = .ok u s') :
    s'.disk = replay cwd (jarCopies I S m x) s.disk := by
  obtain ⟨jar, hjar, -⟩ := stageJar_eq_ok h
  rcases x with ⟨base, _⟩
  obtain rfl := hjar
  obtain ⟨_, s₁, hc, h⟩ := Outcome.bind_eq_ok.1 h
  obtain ⟨c, s₂, hloop, h⟩ := Outcome.bind_eq_ok.1 h
  cases h
  show s₂.disk = replay cwd ([(join I jar, join base jar)] ++ sourceJarCopies S m) s.disk
  rw [replay_append, ← copy_disk hc]
  exact forLoop_replay _ hloop fun _ _ _ _ _ h => stageSourceJar_disk h

theorem stageExtra_eq_ok {D : List Char} {path c : Option (List Char)}
    (h : stageExtra cwd D path s = .ok c s') :
    c = (present path).map (fun q => join D (basename q)) ∧ s'.project = s.project ∧
      s'.disk = replay cwd (extraCopies D path) s.disk := by
  unfold stageExtra at h
  split at h
  · rename_i q hq
    obtain ⟨_, s₁, hc, h⟩ := Outcome.bind_eq_ok.1 h
    cases h
    have hd := copy_disk hc
    obtain ⟨a, -, -, rfl⟩ := copy_eq_ok hc
    exact ⟨by simp [hq], rfl, by simpa [extraCopies, hq] using hd⟩
  · cases h
    exact ⟨by simp [*], rfl, by simp [extraCopies, *]⟩

/-- One round of `map_external_jars`: it adds the entry of an entry with a jar, and copies its
jar, sources and javadoc. -/
theorem stageExternalJar_eq_ok {en : JarEntry}
    (h : stageExternalJar cwd E ES EJ en () s = .ok u s') :
    s'.project = { s.project with externalJars := s.project.externalJars ++
      ((present en.default).map fun jar => (⟨join E (basename jar),
        (present en.sources).map fun q => join ES (basename q),
        (present en.javadoc).map fun q => join EJ (basename q)⟩ : ClasspathEntry)).toList } ∧
    s'.disk = replay cwd (externalJarCopies E ES EJ en) s.disk := by
  unfold stageExternalJar at h
  split at h
  · rename_i jar hjar
    obtain ⟨_, s₁, hc, h⟩ := Outcome.bind_eq_ok.1 h
    obtain ⟨c₁, s₂, h₁, h⟩ := Outcome.bind_eq_ok.1 h
    obtain ⟨c₂, s₃, h₂, h⟩ := Outcome.bind_eq_ok.1 h
    cases h
    obtain ⟨rfl, hp₁, hd₁⟩ := stageExtra_eq_ok h₁
    obtain ⟨rfl, hp₂, hd₂⟩ := stageExtra_eq_ok h₂
    have hd := copy_disk hc
    refine ⟨?_, ?_⟩
    · rw [hp₂, hp₁]
      obtain ⟨a, -, -, rfl⟩ := copy_eq_ok hc
      simp [hjar]
    · show s₃.disk = _
      rw [hd₂, hd₁, hd, ← replay_append, ← replay_append, externalJarCopies, hjar]
      rfl
  · cases h
    exact ⟨by simp [*], by simp [externalJarCopies, *]⟩

/-- The loop of `map_external_jars` that ends normally adds the entry of every entry with a jar,
in order. -/
theorem forLoop_stageExternalJar_project :
    ∀ {ens : List JarEntry} {s s' : Staging τ α},
      Outcome.forLoop (stageExternalJar cwd E ES EJ) ens () s = .ok () s' →
      s'.project = { s.project with externalJars := s.project.externalJars ++
        (ens.filterMap fun en => (present en.default).map fun jar => (⟨join E (basename jar),
          (present en.sources).map fun q => join ES (basename q),
          (present en.javadoc).map fun q => join EJ (basename q)⟩ : ClasspathEntry)) }
  | [], _, _, h => by cases h; simp
  | en :: ens, _, _, h => by
    obtain ⟨_, s₁, h₁, h⟩ := Outcome.bind_eq_ok.1 h
    rw [forLoop_stageExternalJar_project h, (stageExternalJar_eq_ok h₁).1]
    cases hd : present en.default <;> simp [hd]

end Rounds

/-! ## Where the copies write -/

section Where
variable {cwd workDir : List Char} {k : List (List Char)} {jars sourceJars : τ → Mapping}
  {targets : List τ} {entries : List JarEntry} {s : Staging τ α}

@[simp] theorem cleanInternal_project : (cleanInternal cwd workDir s).project = s.project := rfl

@[simp] theorem cleanExternal_project : (cleanExternal cwd workDir s).project = s.project := rfl

theorem cleanInternal_disk (hk : ∀ n ∈ internalNames, ¬Below (resolve cwd (join workDir n)) k) :
    (cleanInternal cwd workDir s).disk k = s.disk k := by
  rw [cleanInternal, safeMkdirClean_disk (hk _ (.tail _ (.head _))),
    safeMkdirClean_disk (hk _ (.head _))]

theorem cleanExternal_disk (hk : ∀ n ∈ externalNames, ¬Below (resolve cwd (join workDir n)) k) :
    (cleanExternal cwd workDir s).disk k = s.disk k := by
  rw [cleanExternal, safeMkdirClean_disk (hk _ (.tail _ (.tail _ (.head _)))),
    safeMkdirClean_disk (hk _ (.tail _ (.head _))), safeMkdirClean_disk (hk _ (.head _))]

/-- A file left after `safe_mkdir(dir, clean=True)` is not below `dir` and was there before. -/
theorem safeMkdirClean_isSome {dir : List Char} (h : ((safeMkdirClean cwd dir s).disk k).isSome) :
    ¬Below (resolve cwd dir) k ∧ (s.disk k).isSome := by
  by_cases hb : Below (resolve cwd dir) k
  · simp [safeMkdirClean, hb] at h
  · exact ⟨hb, by rwa [safeMkdirClean_disk hb] at h⟩

theorem cleanInternal_isSome (h : ((cleanInternal cwd workDir s).disk k).isSome) :
    (∀ n ∈ internalNames, ¬Below (resolve cwd (join workDir n)) k) ∧ (s.disk k).isSome := by
  obtain ⟨h₁, h₂⟩ := safeMkdirClean_isSome h
  obtain ⟨h₃, h₄⟩ := safeMkdirClean_isSome h₂
  refine ⟨fun n hn => ?_, h₄⟩
  simp only [internalNames, List.mem_cons, List.mem_singleton, List.not_mem_nil, or_false] at hn
  rcases hn with rfl | rfl
  exacts [h₃, h₁]

theorem cleanExternal_isSome (h : ((cleanExternal cwd workDir s).disk k).isSome) :
    (∀ n ∈ externalNames, ¬Below (resolve cwd (join workDir n)) k) ∧ (s.disk k).isSome := by
  obtain ⟨h₁, h₂⟩ := safeMkdirClean_isSome h
  obtain ⟨h₃, h₄⟩ := safeMkdirClean_isSome h₂
  obtain ⟨h₅, h₆⟩ := safeMkdirClean_isSome h₄
  refine ⟨fun n hn => ?_, h₆⟩
  simp only [externalNames, List.mem_cons, List.mem_singleton, List.not_mem_nil, or_false] at hn
  rcases hn with rfl | rfl | rfl
  exacts [h₅, h₃, h₁]

theorem cleanInternal_eq_none {n : List Char} (hn : n ∈ internalNames)
    (hb : Below (resolve cwd (join workDir n)) k) : (cleanInternal cwd workDir s).disk k = none :=
  Option.not_isSome_iff_eq_none.1 fun h => (cleanInternal_isSome h).1 n hn hb

theorem cleanExternal_eq_none {n : List Char} (hn : n ∈ externalNames)
    (hb : Below (resolve cwd (join workDir n)) k) : (cleanExternal cwd workDir s).disk k = none :=
  Option.not_isSome_iff_eq_none.1 fun h => (cleanExternal_isSome h).1 n hn hb

/-- The staging code copies every file under a file name: the jar and source jar names of the
mappings, and the basenames of the resolved external files, are names (`IsName`), so no copy
leaves the staging directory it aims at. -/
def FileNames (jars sourceJars : τ → Mapping) (targets : List τ) (entries : List JarEntry) :
    Prop :=
  (∀ x ∈ jarItems jars targets, (∀ jar ∈ x.2.2, IsName jar) ∧
    ∀ item ∈ (sourceJars x.1).items, ∀ j ∈ item.2, IsName j) ∧
  ∀ en ∈ entries, ∀ q ∈ [en.default, en.sources, en.javadoc].filterMap present, IsName (basename q)

theorem mem_internalCopies (workDir : List Char) {x : τ × List Char × List (List Char)}
    (hx : x ∈ jarItems jars targets) :
    (∀ jar ∈ x.2.2, (join (join workDir "internal-libs".toList) jar, join x.2.1 jar) ∈
      internalCopies workDir jars sourceJars targets) ∧
    ∀ item ∈ (sourceJars x.1).items, ∀ j ∈ item.2,
      (join (join workDir "internal-libsources".toList) j, join item.1 j) ∈
        internalCopies workDir jars sourceJars targets :=
  ⟨fun _ hj => List.mem_flatMap.2 ⟨x, hx, List.mem_append_left _ (List.mem_map_of_mem _ hj)⟩,
    fun _ hi _ hj => List.mem_flatMap.2 ⟨x, hx, List.mem_append_right _
      (List.mem_flatMap.2 ⟨_, hi, List.mem_map_of_mem _ hj⟩)⟩⟩

/-- The copies of `map_internal_jars` write below its two directories, when the names of the
mappings are file names. -/
theorem internalCopies_below (cwd workDir : List Char)
    (hnames : FileNames jars sourceJars targets entries) :
    ∀ c ∈ internalCopies workDir jars sourceJars targets,
      ∃ n ∈ internalNames, Below (resolve cwd (join workDir n)) (resolve cwd c.1) := by
  simp only [internalCopies, jarCopies, sourceJarCopies, List.mem_flatMap, List.mem_append,
    List.mem_map]
  rintro c ⟨x, hx, ⟨jar, hj, rfl⟩ | ⟨item, hi, j, hj, rfl⟩⟩
  · exact ⟨_, .head _, below_join_name ((hnames.1 x hx).1 jar hj)⟩
  · exact ⟨_, .tail _ (.head _), below_join_name ((hnames.1 x hx).2 item hi j hj)⟩

theorem mem_externalCopies (workDir : List Char) {en : JarEntry} {jar : List Char}
    (hen : en ∈ entries) (hjar : present en.default = some jar) :
    (join (join workDir "external-libs".toList) (basename jar), jar) ∈
      externalCopies workDir entries ∧
    (∀ q, present en.sources = some q →
      (join (join workDir "external-libsources".toList) (basename q), q) ∈
        externalCopies workDir entries) ∧
    ∀ q, present en.javadoc = some q →
      (join (join workDir "external-libjavadoc".toList) (basename q), q) ∈
        externalCopies workDir entries := by
  have hround : externalJarCopies (join workDir "external-libs".toList)
      (join workDir "external-libsources".toList) (join workDir "external-libjavadoc".toList) en ⊆
      externalCopies workDir entries := fun _ hc => List.mem_flatMap.2 ⟨en, hen, hc⟩
  simp only [externalJarCopies, hjar] at hround
  refine ⟨hround (List.mem_cons_self _ _), fun q hq => hround ?_, fun q hq => hround ?_⟩ <;>
    simp [extraCopies, hq]

/-- The copies of `map_external_jars` write below its three directories, when the basenames of
the external files are names. -/
theorem externalCopies_below (cwd workDir : List Char)
    (hnames : FileNames jars sourceJars targets entries) :
    ∀ c ∈ externalCopies workDir entries,
      ∃ n ∈ externalNames, Below (resolve cwd (join workDir n)) (resolve cwd c.1) := by
  simp only [externalCopies, List.mem_flatMap]
  rintro c ⟨en, hen, hc⟩
  have hq := hnames.2 en hen
  unfold externalJarCopies at hc
  split at hc
  · rename_i jar hjar
    simp only [extraCopies, List.mem_cons, List.mem_append, Option.mem_toList, Option.mem_def,
      Option.map_eq_some'] at hc
    rcases hc with rfl | ⟨q, hq', rfl⟩ | ⟨q, hq', rfl⟩
    · exact ⟨_, .head _,
        below_join_name (hq jar (List.mem_filterMap.2 ⟨_, .head _, hjar⟩))⟩
    · exact ⟨_, .tail _ (.head _), below_join_name
        (hq q (List.mem_filterMap.2 ⟨_, .tail _ (.head _), hq'⟩))⟩
    · exact ⟨_, .tail _ (.tail _ (.head _)), below_join_name
        (hq q (List.mem_filterMap.2 ⟨_, .tail _ (.tail _ (.head _)), hq'⟩))⟩
  · cases hc

end Where

/-! ## A mapping ambiguous in its second target

Target `0` maps the base `/b` to `a.jar`, target `1` maps it to `x.jar` and `y.jar`; no target
has source jars, the work directory is `/w`. Only `a.jar` is on the disk: the loop raises before
it copies a jar of target `1`. -/

/-- The `jars` mappings. -/
def ambiguousJars (t : Fin 2) : Mapping :=
  if t = 0 then ⟨[("/b".toList, ["a.jar".toList])], by decide⟩
  else ⟨[("/b".toList, ["x.jar".toList, "y.jar".toList])], by decide⟩

/-- No `source_jars` mappings. -/
def noSourceJars (_ : Fin 2) : Mapping := ⟨[], List.nodup_nil⟩

/-- The jar `/b/a.jar` on the disk, with content `1`. -/
def ambiguousStaging : Staging (Fin 2) Nat :=
  ⟨fun p => if p = ["b".toList, "a.jar".toList] then some 1 else none,
    .new false false "/r".toList [] true⟩

section Theorems
variable {cwd workDir : List Char} {jars sourceJars : τ → Mapping} {targets : List τ}
  {st s : Staging τ α} {e : StagingError τ}

theorem mapInternalJars_outcome (hcopy : SourcesPresent cwd workDir jars sourceJars targets st) :
    ((∃ e s, mapInternalJars cwd workDir jars sourceJars targets st = .raised e s) ↔
      Ambiguous jars sourceJars targets) ∧
    (∀ e s, mapInternalJars cwd workDir jars sourceJars targets st = .raised e s →
      e.IsTaskError) ∧
    ∀ s, mapInternalJars cwd workDir jars sourceJars targets st = .ok () s → ∃ entries,
      s.project = { st.project with internalJars := st.project.internalJars ++ entries } ∧
      List.Forall₂ (fun x e => ∃ jar, x.2.2 = [jar] ∧ e = internalEntry workDir sourceJars x jar)
        (jarItems jars targets) entries := by
  rw [mapInternalJars_eq]
  have hraised : ∀ e s, Outcome.forLoop (fun x _ s => stageJar cwd
      (join workDir "internal-libs".toList) (join workDir "internal-libsources".toList)
      (sourceJars x.1) x.1 x.2 () s) (jarItems jars targets) () (cleanInternal cwd workDir st) =
      .raised e s → e.IsTaskError ∧ Ambiguous jars sourceJars targets := by
    intro e s h
    obtain ⟨pre, x, rest, _, s₁, hxs, hpre, hx⟩ := Outcome.forLoop_eq_raised h
    obtain ⟨hun, hg₁, -⟩ := forLoop_stageJar_ok hpre
    obtain ⟨hg₂, -, htask | ⟨-, c, hc, hfail⟩⟩ := stageJar_eq_raised hx
    · exact ⟨htask.1, ambiguous_iff.2 ⟨x, by simp [hxs], htask.2⟩⟩
    · obtain ⟨hsome, hne⟩ := hcopy c (by rw [hxs]; exact mem_reachedCopies hun hc)
      rcases hfail with hnone | heq
      · exact absurd (hg₂ _ (hg₁ _ hsome)) (by simp [hnone])
      · exact absurd heq hne
  refine ⟨⟨fun ⟨e, s, h⟩ => (hraised e s h).2, fun hamb => ?_⟩, fun e s h => (hraised e s h).1,
    fun s h => ?_⟩
  · cases hrun : Outcome.forLoop (fun x _ s => stageJar cwd (join workDir "internal-libs".toList)
        (join workDir "internal-libsources".toList) (sourceJars x.1) x.1 x.2 () s)
        (jarItems jars targets) () (cleanInternal cwd workDir st) with
    | ok b s =>
      obtain ⟨hun, -⟩ := forLoop_stageJar_ok hrun
      obtain ⟨x, hx, hnot⟩ := ambiguous_iff.1 hamb
      exact absurd (hun x hx) hnot
    | raised e s => exact ⟨e, s, rfl⟩
  · obtain ⟨-, -, entries, hp, hfa, -⟩ := forLoop_stageJar_ok h
    exact ⟨entries, hp, hfa⟩

theorem ambiguous_mapInternalJars_outcome :
    SourcesPresent "/".toList "/w".toList ambiguousJars noSourceJars [0, 1] ambiguousStaging ∧
    ((∃ e s, mapInternalJars "/".toList "/w".toList ambiguousJars noSourceJars [0, 1]
      ambiguousStaging = .raised e s) ↔ Ambiguous ambiguousJars noSourceJars [0, 1]) ∧
    (∀ e s, mapInternalJars "/".toList "/w".toList ambiguousJars noSourceJars [0, 1]
      ambiguousStaging = .raised e s → e.IsTaskError) ∧
    ∀ s, mapInternalJars "/".toList "/w".toList ambiguousJars noSourceJars [0, 1]
      ambiguousStaging = .ok () s → ∃ entries,
      s.project = { ambiguousStaging.project with
        internalJars := ambiguousStaging.project.internalJars ++ entries } ∧
      List.Forall₂ (fun x e => ∃ jar, x.2.2 = [jar] ∧ e = internalEntry "/w".toList noSourceJars x jar)
        (jarItems ambiguousJars [0, 1]) entries := by
  have hcopy : SourcesPresent "/".toList "/w".toList ambiguousJars noSourceJars [0, 1]
      ambiguousStaging := by
    unfold SourcesPresent; decide
  exact ⟨hcopy, mapInternalJars_outcome hcopy⟩

theorem mapInternalJars_raised
    (h : mapInternalJars cwd workDir jars sourceJars targets st = .raised e s)
    (he : e.IsTaskError) :
    ∃ pre x rest, jarItems jars targets = pre ++ x :: rest ∧
      (∀ y ∈ pre, Unambiguous sourceJars y) ∧ ¬Unambiguous sourceJars x ∧ ∃ entries,
        s.project = { st.project with internalJars := st.project.internalJars ++ entries } ∧
        List.Forall₂ (fun y e => ∃ jar, y.2.2 = [jar] ∧ e = internalEntry workDir sourceJars y jar)
          pre entries ∧
        ∀ e ∈ entries, (s.disk (resolve cwd e.jar)).isSome := by
  rw [mapInternalJars_eq] at h
  obtain ⟨pre, x, rest, _, s₁, hxs, hpre, hx⟩ := Outcome.forLoop_eq_raised h
  obtain ⟨hun, -, entries, hp, hfa, hfiles⟩ := forLoop_stageJar_ok hpre
  obtain ⟨hg, hp', htask | ⟨hnt, -⟩⟩ := stageJar_eq_raised hx
  · exact ⟨pre, x, rest, hxs, hun, htask.2, entries, hp'.trans hp, hfa,
      fun e he => hg _ (hfiles e he)⟩
  · exact absurd he hnt

theorem ambiguous_mapInternalJars_raised : ∃ s,
    mapInternalJars "/".toList "/w".toList ambiguousJars noSourceJars [0, 1] ambiguousStaging =
      .raised (.multipleJars 1 ["x.jar".toList, "y.jar".toList]) s ∧
    ∃ pre x rest, jarItems ambiguousJars [0, 1] = pre ++ x :: rest ∧
      (∀ y ∈ pre, Unambiguous noSourceJars y) ∧ ¬Unambiguous noSourceJars x ∧ ∃ entries,
        s.project = { ambiguousStaging.project with
          internalJars := ambiguousStaging.project.internalJars ++ entries } ∧
        List.Forall₂ (fun y e => ∃ jar, y.2.2 = [jar] ∧ e = internalEntry "/w".toList noSourceJars y jar)
          pre entries ∧
        ∀ e ∈ entries, (s.disk (resolve "/".toList e.jar)).isSome := by
  have h := Outcome.eq_raised_of_error? (by decide : (mapInternalJars "/".toList "/w".toList
    ambiguousJars noSourceJars [0, 1] ambiguousStaging).error? =
      some (.multipleJars 1 ["x.jar".toList, "y.jar".toList]))
  exact ⟨_, h, mapInternalJars_raised h trivial⟩

/-- The run raises at target `1` after staging `a.jar` of target `0` and adding its entry. -/
theorem ambiguous_mapInternalJars :
    (mapInternalJars "/".toList "/w".toList ambiguousJars noSourceJars [0, 1]
      ambiguousStaging).error? = some (.multipleJars 1 ["x.jar".toList, "y.jar".toList]) ∧
    (mapInternalJars "/".toList "/w".toList ambiguousJars noSourceJars [0, 1]
      ambiguousStaging).state.project.internalJars =
      [⟨"/w/internal-libs/a.jar".toList, none, none⟩] ∧
    (mapInternalJars "/".toList "/w".toList ambiguousJars noSourceJars [0, 1]
      ambiguousStaging).state.disk ["w".toList, "internal-libs".toList, "a.jar".toList] = some 1 := by
  decide

/-- A `TaskError` of `map_internal_jars` names the first item, in loop order, whose mapping is
ambiguous: `Unexpected mapping, multiple jars for <target>: <jars>` with the jars of its base
when they are not one jar (no jar at all included), and otherwise `Unexpected mapping, multiple
source jars for <target>: <jars>` with the source jars of the target's first base, in `items()`
order, that has other than one. -/
theorem mapInternalJars_taskError
    (h : mapInternalJars cwd workDir jars sourceJars targets st = .raised e s)
    (he : e.IsTaskError) :
    ∃ pre x rest, jarItems jars targets = pre ++ x :: rest ∧ (∀ y ∈ pre, Unambiguous sourceJars y) ∧
      ((x.2.2.length ≠ 1 ∧ e = .multipleJars x.1 x.2.2) ∨
        (x.2.2.length = 1 ∧ ∃ spre item srest, (sourceJars x.1).items = spre ++ item :: srest ∧
          (∀ i ∈ spre, i.2.length = 1) ∧ item.2.length ≠ 1 ∧
          e = .multipleSourceJars x.1 item.2)) := by
  rw [mapInternalJars_eq] at h
  obtain ⟨pre, x, rest, _, s₁, hxs, hpre, hx⟩ := Outcome.forLoop_eq_raised h
  exact ⟨pre, x, rest, hxs, (forLoop_stageJar_ok hpre).1, stageJar_taskError hx he⟩

/-- The run over `ambiguousJars` raises for target `1`, whose base has two jars. -/
theorem ambiguous_mapInternalJars_taskError : ∃ s,
    mapInternalJars "/".toList "/w".toList ambiguousJars noSourceJars [0, 1] ambiguousStaging =
      .raised (.multipleJars 1 ["x.jar".toList, "y.jar".toList]) s ∧
    (StagingError.multipleJars (1 : Fin 2) ["x.jar".toList, "y.jar".toList]).IsTaskError ∧
    ∃ pre x rest, jarItems ambiguousJars [0, 1] = pre ++ x :: rest ∧
      (∀ y ∈ pre, Unambiguous noSourceJars y) ∧
      ((x.2.2.length ≠ 1 ∧ StagingError.multipleJars 1 ["x.jar".toList, "y.jar".toList] =
          .multipleJars x.1 x.2.2) ∨
        (x.2.2.length = 1 ∧ ∃ spre item srest, (noSourceJars x.1).items = spre ++ item :: srest ∧
          (∀ i ∈ spre, i.2.length = 1) ∧ item.2.length ≠ 1 ∧
          StagingError.multipleJars 1 ["x.jar".toList, "y.jar".toList] =
            .multipleSourceJars x.1 item.2)) := by
  have h := Outcome.eq_raised_of_error? (by decide : (mapInternalJars "/".toList "/w".toList
    ambiguousJars noSourceJars [0, 1] ambiguousStaging).error? =
      some (.multipleJars 1 ["x.jar".toList, "y.jar".toList]))
  exact ⟨_, h, trivial, mapInternalJars_taskError h trivial⟩

/-- What the user reads, with targets printed as their indices. -/
example : (StagingError.multipleJars (1 : Fin 2) ["x.jar".toList, "y.jar".toList]).message
    (fun t => if t = 0 then "0".toList else "1".toList) =
      "Unexpected mapping, multiple jars for 1: ['x.jar', 'y.jar']".toList := by
  decide

end Theorems

/-! ## What the staged files hold -/

/-- The artifact `cp_source_jar` is copied from: the source jar of the last base. -/
def lastSourceOrigin (m : Mapping) : Option (List Char) :=
  m.items.foldl (fun _ item => item.2.head?.map (join item.1)) none

/-- The artifacts the entry of the item `x`, whose single jar is `jar`, is made from. -/
def internalOrigin (sourceJars : τ → Mapping) (x : τ × List Char × List (List Char))
    (jar : List Char) : ClasspathEntry :=
  ⟨join x.2.1 jar, lastSourceOrigin (sourceJars x.1), none⟩

/-- The files a staged entry `e` points to hold, on the disk `d`, what the artifacts of `o` it was
made from held on the disk `d₀`, every path resolved from `cwd`: its jar, and its source jar and
javadoc jar when it has them. -/
def ClasspathEntry.HoldsFrom (cwd : List Char) (d d₀ : List (List Char) → Option α)
    (e o : ClasspathEntry) : Prop :=
  d (resolve cwd e.jar) = d₀ (resolve cwd o.jar) ∧
    Option.Rel (fun p q => d (resolve cwd p) = d₀ (resolve cwd q)) e.sourceJar o.sourceJar ∧
    Option.Rel (fun p q => d (resolve cwd p) = d₀ (resolve cwd q)) e.javadocJar o.javadocJar

/-- The conditions under which staging keeps every artifact: every file is staged under a file
name, no artifact lies in a staging directory, and every staged file is copied from one artifact
only. -/
structure StagedApart (cwd workDir : List Char) (jars sourceJars : τ → Mapping) (targets : List τ)
    (entries : List JarEntry) : Prop where
  names : FileNames jars sourceJars targets entries
  outside : ∀ c ∈ mapJarsCopies workDir jars sourceJars targets entries,
    ¬Staged cwd workDir (resolve cwd c.2)
  functional : ∀ c ∈ mapJarsCopies workDir jars sourceJars targets entries,
    ∀ c' ∈ mapJarsCopies workDir jars sourceJars targets entries,
      resolve cwd c.1 = resolve cwd c'.1 → resolve cwd c.2 = resolve cwd c'.2

theorem rel_lastSourceJar {S : List Char} {m : Mapping} {R : List Char → List Char → Prop}
    (h : ∀ item ∈ m.items, ∀ j ∈ item.2, R (join S j) (join item.1 j)) :
    Option.Rel R (lastSourceJar S m) (lastSourceOrigin m) := by
  unfold lastSourceJar lastSourceOrigin
  generalize m.items = items at h
  suffices ∀ c c', Option.Rel R c c' →
      Option.Rel R (items.foldl (fun _ item => item.2.head?.map (join S)) c)
        (items.foldl (fun _ item => item.2.head?.map (join item.1)) c') from this none none .none
  induction items with
  | nil => exact fun _ _ h => h
  | cons item items ih =>
    refine fun _ _ _ => ih (fun i hi => h i (List.mem_cons_of_mem _ hi)) _ _ ?_
    show Option.Rel R (item.2.head?.map (join S)) (item.2.head?.map (join item.1))
    cases hj : item.2 with
    | nil => exact .none
    | cons j js => exact .some (h item (List.mem_cons_self _ _) j (by simp [hj]))

theorem rel_map_present {path : Option (List Char)} {f : List Char → List Char}
    {R : List Char → List Char → Prop} (h : ∀ q, present path = some q → R (f q) q) :
    Option.Rel R ((present path).map f) (present path) := by
  cases hq : present path with
  | none => exact .none
  | some q => exact .some (h q hq)

/-! ## Two targets staging jars of one name

Targets `0` and `1` both map a jar named `a.jar`, from the bases `/b1` and `/b2`; target `0` may
have the source jar `a-sources.jar` under `/s`, and one external jar may be resolved, with its
sources. -/

/-- The `jars` mappings. -/
def clashJars (t : Fin 2) : Mapping :=
  if t = 0 then ⟨[("/b1".toList, ["a.jar".toList])], by decide⟩
  else ⟨[("/b2".toList, ["a.jar".toList])], by decide⟩

/-- A `source_jars` mapping with one source jar. -/
def oneSourceJar (_ : Fin 2) : Mapping := ⟨[("/s".toList, ["a-sources.jar".toList])], by decide⟩

/-- One resolved external jar, with its sources and no javadoc. -/
def externalJarEntries : List JarEntry :=
  [⟨some "/m/e.jar".toList, some "/m/e-sources.jar".toList, none⟩]

/-- The artifacts on the disk, with contents `1` to `5`. -/
def clashStaging : Staging (Fin 2) Nat :=
  ⟨fun p => if p = ["b1".toList, "a.jar".toList] then some 1
    else if p = ["b2".toList, "a.jar".toList] then some 2
    else if p = ["s".toList, "a-sources.jar".toList] then some 3
    else if p = ["m".toList, "e.jar".toList] then some 4
    else if p = ["m".toList, "e-sources.jar".toList] then some 5 else none,
    .new false false "/r".toList [] true⟩

section Staged
variable {cwd workDir : List Char} {jars sourceJars : τ → Mapping} {targets : List τ}
  {entries : List JarEntry} {st s : Staging τ α}

theorem mapInternalJars_disk {s₁ : Staging τ α}
    (h : mapInternalJars cwd workDir jars sourceJars targets st = .ok () s₁) :
    s₁.disk = replay cwd (internalCopies workDir jars sourceJars targets)
      (cleanInternal cwd workDir st).disk := by
  rw [mapInternalJars_eq] at h
  exact forLoop_replay _ h fun _ _ _ _ _ h => stageJar_disk h

theorem mapExternalJars_disk {s₁ : Staging τ α}
    (h : mapExternalJars cwd workDir entries s₁ = .ok () s) :
    s.disk = replay cwd (externalCopies workDir entries) (cleanExternal cwd workDir s₁).disk := by
  rw [mapExternalJars_eq] at h
  exact forLoop_replay _ h fun _ _ _ _ _ h => (stageExternalJar_eq_ok h).2

/-- A run of `map_internal_jars` then `map_external_jars` that ends normally leaves the disk its
copies leave, replayed in order: those of `map_internal_jars` from the disk with the internal
directories cleaned, then those of `map_external_jars` with the external directories cleaned. -/
theorem mapJars_disk (h : mapJars cwd workDir jars sourceJars targets entries st = .ok () s) :
    s.disk = replay cwd (externalCopies workDir entries) (cleanExternal cwd workDir
      { st with disk := (replay cwd (internalCopies workDir jars sourceJars targets)
        (cleanInternal cwd workDir st).disk) }).disk := by
  obtain ⟨_, s₁, h₁, h₂⟩ := Outcome.bind_eq_ok.1 h
  have hext := mapExternalJars_disk h₂
  rwa [← mapInternalJars_disk h₁]

/-- Under `StagedApart`, a run that ends normally leaves every staged file holding what its
artifact held before the run. -/
theorem mapJars_copies_hold (happ : StagedApart cwd workDir jars sourceJars targets entries)
    (h : mapJars cwd workDir jars sourceJars targets entries st = .ok () s) :
    ∀ c ∈ mapJarsCopies workDir jars sourceJars targets entries,
      s.disk (resolve cwd c.1) = st.disk (resolve cwd c.2) := by
  intro c hc
  have hin := internalCopies_below cwd workDir happ.names
  have hex := externalCopies_below cwd workDir happ.names
  have hqn : ∀ n ∈ internalNames ++ externalNames,
      ¬Below (resolve cwd (join workDir n)) (resolve cwd c.2) :=
    fun n hn hb => happ.outside c hc ⟨n, hn, hb⟩
  have hq : ∀ c' ∈ mapJarsCopies workDir jars sourceJars targets entries,
      resolve cwd c'.1 ≠ resolve cwd c.2 := by
    intro c' hc' he
    rcases List.mem_append.1 hc' with hc' | hc'
    · obtain ⟨n, hn, hb⟩ := hin c' hc'
      exact hqn n (List.mem_append_left _ hn) (he ▸ hb)
    · obtain ⟨n, hn, hb⟩ := hex c' hc'
      exact hqn n (List.mem_append_right _ hn) (he ▸ hb)
  have hfun : ∀ c' ∈ mapJarsCopies workDir jars sourceJars targets entries,
      resolve cwd c'.1 = resolve cwd c.1 → resolve cwd c'.2 = resolve cwd c.2 :=
    fun c' hc' => happ.functional c' hc' c hc
  obtain ⟨_, s₁, h₁, h₂⟩ := Outcome.bind_eq_ok.1 h
  rw [mapExternalJars_disk h₂]
  rcases List.mem_append.1 hc with hc' | hc'
  · obtain ⟨n, hn, hb⟩ := hin c hc'
    have hnx := below_internal hn hb
    have hnot : ∀ c' ∈ externalCopies workDir entries, resolve cwd c'.1 ≠ resolve cwd c.1 :=
      fun c' h' he => by
        obtain ⟨m, hm, hb'⟩ := hex c' h'
        exact hnx m hm (he ▸ hb')
    rw [replay_of_not_mem hnot, cleanExternal_disk hnx, mapInternalJars_disk h₁,
      replay_of_mem ⟨c, hc', rfl⟩ (fun c' h' => hfun c' (List.mem_append_left _ h'))
        (fun c' h' => hq c' (List.mem_append_left _ h')),
      cleanInternal_disk fun n hn => hqn n (List.mem_append_left _ hn)]
  · rw [replay_of_mem ⟨c, hc', rfl⟩ (fun c' h' => hfun c' (List.mem_append_right _ h'))
        (fun c' h' => hq c' (List.mem_append_right _ h')),
      cleanExternal_disk fun n hn => hqn n (List.mem_append_right _ hn), mapInternalJars_disk h₁,
      replay_of_not_mem fun c' h' => hq c' (List.mem_append_left _ h'),
      cleanInternal_disk fun n hn => hqn n (List.mem_append_left _ hn)]

theorem map_jar_of_forall₂ {I : List Char} {xs : List (τ × List Char × List (List Char))}
    {es : List ClasspathEntry}
    (h : List.Forall₂ (fun x e => ∃ jar, x.2.2 = [jar] ∧ e.jar = join I jar) xs es) :
    es.map ClasspathEntry.jar = (xs.flatMap fun x => x.2.2).map (join I) := by
  induction h with
  | nil => rfl
  | cons hxe _ ih =>
    obtain ⟨jar, hjar, he⟩ := hxe
    simp [hjar, he, ih]

theorem mapJars_holds (happ : StagedApart cwd workDir jars sourceJars targets entries)
    (h : mapJars cwd workDir jars sourceJars targets entries st = .ok () s) :
    ∃ ientries, s.project = { st.project with
        internalJars := st.project.internalJars ++ ientries,
        externalJars := st.project.externalJars ++
          (entries.filterMap fun en => (present en.default).map (externalEntry workDir en)) } ∧
      List.Forall₂ (fun x e => ∃ jar, x.2.2 = [jar] ∧ e = internalEntry workDir sourceJars x jar ∧
          e.HoldsFrom cwd s.disk st.disk (internalOrigin sourceJars x jar))
        (jarItems jars targets) ientries ∧
      (∀ en ∈ entries, ∀ jar, present en.default = some jar →
        (externalEntry workDir en jar).HoldsFrom cwd s.disk st.disk
          ⟨jar, present en.sources, present en.javadoc⟩) ∧
      ((ientries.map ClasspathEntry.jar).Nodup ↔
        ((jarItems jars targets).flatMap fun x => x.2.2).Nodup) ∧
      (((entries.filterMap fun en => (present en.default).map (externalEntry workDir en)).map
        ClasspathEntry.jar).Nodup ↔ ((entries.filterMap fun en => present en.default).map basename).Nodup) := by
  have hcp := mapJars_copies_hold happ h
  obtain ⟨_, s₁, h₁, h₂⟩ := Outcome.bind_eq_ok.1 h
  rw [mapInternalJars_eq] at h₁
  rw [mapExternalJars_eq] at h₂
  obtain ⟨-, -, ientries, hp₁, hfa, -⟩ := forLoop_stageJar_ok h₁
  refine ⟨ientries, ?_, ?_, fun en hen jar hjar => ?_, ?_, ?_⟩
  · rw [forLoop_stageExternalJar_project h₂, cleanExternal_project, hp₁, cleanInternal_project]
    rfl
  · refine ((List.forall₂_and_left _ _).2 ⟨fun x hx => hx, hfa⟩).imp fun x e ⟨hx, jar, hjar, he⟩ =>
      ⟨jar, hjar, he, ?_⟩
    obtain ⟨hjars, hsrc⟩ := mem_internalCopies workDir hx
    subst he
    exact ⟨hcp (_, _) (List.mem_append_left _ (hjars jar (by simp [hjar]))),
      rel_lastSourceJar fun item hi j hj => hcp (_, _) (List.mem_append_left _ (hsrc item hi j hj)),
      .none⟩
  · obtain ⟨hj, hs, hd⟩ := mem_externalCopies workDir hen hjar
    exact ⟨hcp (_, _) (List.mem_append_right _ hj),
      rel_map_present fun q hq => hcp (_, _) (List.mem_append_right _ (hs q hq)),
      rel_map_present fun q hq => hcp (_, _) (List.mem_append_right _ (hd q hq))⟩
  · rw [map_jar_of_forall₂
      (hfa.imp fun _ _ ⟨jar, hjar, he⟩ => ⟨jar, hjar, congrArg ClasspathEntry.jar he⟩)]
    refine nodup_map_join_iff fun n hn => ?_
    obtain ⟨x, hx, hn⟩ := List.mem_flatMap.1 hn
    exact ((happ.names.1 x hx).1 n hn).head?_ne
  · have hmap : (entries.filterMap fun en => (present en.default).map (externalEntry workDir en)).map
        ClasspathEntry.jar = ((entries.filterMap fun en => present en.default).map basename).map
          (join (join workDir "external-libs".toList)) := by
      simp [List.map_filterMap, Option.map_map, Function.comp_def, externalEntry]
    rw [hmap]
    refine nodup_map_join_iff fun n hn => ?_
    obtain ⟨q, -, rfl⟩ := List.mem_map.1 hn
    exact basename_head?

theorem staged_mapJars_holds :
    StagedApart "/".toList "/w".toList clashJars oneSourceJar [0] externalJarEntries ∧ ∃ s,
    mapJars "/".toList "/w".toList clashJars oneSourceJar [0] externalJarEntries clashStaging =
      .ok () s ∧
    ∃ ientries, s.project = { clashStaging.project with
        internalJars := clashStaging.project.internalJars ++ ientries,
        externalJars := clashStaging.project.externalJars ++ (externalJarEntries.filterMap fun en =>
          (present en.default).map (externalEntry "/w".toList en)) } ∧
      List.Forall₂ (fun x e => ∃ jar, x.2.2 = [jar] ∧ e = internalEntry "/w".toList oneSourceJar x jar ∧
          e.HoldsFrom "/".toList s.disk clashStaging.disk (internalOrigin oneSourceJar x jar))
        (jarItems clashJars [0]) ientries ∧
      (∀ en ∈ externalJarEntries, ∀ jar, present en.default = some jar →
        (externalEntry "/w".toList en jar).HoldsFrom "/".toList s.disk clashStaging.disk
          ⟨jar, present en.sources, present en.javadoc⟩) ∧
      ((ientries.map ClasspathEntry.jar).Nodup ↔
        ((jarItems clashJars [0]).flatMap fun x => x.2.2).Nodup) ∧
      (((externalJarEntries.filterMap fun en => (present en.default).map (externalEntry "/w".toList en)).map
        ClasspathEntry.jar).Nodup ↔
          ((externalJarEntries.filterMap fun en => present en.default).map basename).Nodup) := by
  have happ : StagedApart "/".toList "/w".toList clashJars oneSourceJar [0] externalJarEntries :=
    ⟨by unfold FileNames; decide, by decide, by decide⟩
  have h := Outcome.eq_ok_of_error?_eq_none (by decide : (mapJars "/".toList "/w".toList clashJars
    oneSourceJar [0] externalJarEntries clashStaging).error? = none)
  exact ⟨happ, _, h, mapJars_holds happ h⟩

/-- Both targets stage their jar at `/w/internal-libs/a.jar`: the run ends normally with two
entries of that path, and the file holds the jar of target `1`, not the jar of target `0` that the
first entry was made from. -/
theorem clash_mapJars :
    (mapJars "/".toList "/w".toList clashJars noSourceJars [0, 1] [] clashStaging).error? = none ∧
    (mapJars "/".toList "/w".toList clashJars noSourceJars [0, 1] [] clashStaging).state.project.internalJars =
      [⟨"/w/internal-libs/a.jar".toList, none, none⟩, ⟨"/w/internal-libs/a.jar".toList, none, none⟩] ∧
    (mapJars "/".toList "/w".toList clashJars noSourceJars [0, 1] [] clashStaging).state.disk
      ["w".toList, "internal-libs".toList, "a.jar".toList] = some 2 ∧
    clashStaging.disk ["b1".toList, "a.jar".toList] = some 1 := by
  decide

end Staged

end PantsIde
