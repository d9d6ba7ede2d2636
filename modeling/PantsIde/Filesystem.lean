import PantsIde.PosixPath

/-! # The directory tree read by `os.walk` and `os.listdir`

The disk as `Project.configure_jvm` reads it: a tree of directories and files without symbolic
links, each directory listing its entries in `os.listdir` order (`FsNode`). A path opens one
entry per component, so in a tree without links `.` and `..` resolve lexically, as `normpath`
does (`resolve`).

`FsNode.walk` is `os.walk` (top-down, no links to follow), and `FsNode.children` collects what
`configure_jvm` takes from it, `os.path.join(root, d)` for each yielded subdirectory `d`. In a
tree whose directories list distinct names (`FsNode.WF`), these strings are exactly the
spellings of the directories strictly below the top (`Filesystem.mem_children_walk_spell`). -/

namespace PantsIde
open PosixPath

/-- A node of the disk: a file, or a directory with its entries in `os.listdir` order. -/
inductive FsNode where
  | file : FsNode
  | dir : List (List Char × FsNode) → FsNode

namespace FsNode

/-- `os.path.isdir` of an entry. -/
def isDir : FsNode → Bool
  | file => false
  | dir _ => true

mutual
/-- Every directory lists distinct entries, each named by a path component. -/
def WF : FsNode → Prop
  | file => True
  | dir es => (es.map Prod.fst).Nodup ∧ EntriesWF es

/-- `WF` of the entries of one directory. -/
def EntriesWF : List (List Char × FsNode) → Prop
  | [] => True
  | (n, sub) :: es => IsName n ∧ WF sub ∧ EntriesWF es
end

mutual
/-- `WF` is decidable, so a concrete tree can be checked. -/
def decWF : (node : FsNode) → Decidable node.WF
  | file => isTrue trivial
  | dir es => @instDecidableAnd _ _ (List.nodupDecidable _) (decEntriesWF es)

/-- `EntriesWF` is decidable. -/
def decEntriesWF : (es : List (List Char × FsNode)) → Decidable (EntriesWF es)
  | [] => isTrue trivial
  | (n, sub) :: es =>
    @instDecidableAnd _ _ (inferInstanceAs (Decidable (IsName n)))
      (@instDecidableAnd _ _ (decWF sub) (decEntriesWF es))
end

instance (node : FsNode) : Decidable node.WF := decWF node

/-- Opening the components `p` one entry at a time. -/
def find : FsNode → List (List Char) → Option FsNode
  | node, [] => some node
  | file, _ :: _ => none
  | dir es, n :: p => (es.lookup n).bind (find · p)

/-- `p` names a directory below the node. -/
def IsDirAt (node : FsNode) (p : List (List Char)) : Prop := (node.find p).any isDir = true

instance (node : FsNode) (p : List (List Char)) : Decidable (node.IsDirAt p) :=
  inferInstanceAs (Decidable (_ = true))

mutual
/-- `os.walk(top)` below a directory: `(root, dirnames, filenames)` top-down. -/
def walk (top : List Char) : FsNode → List (List Char × List (List Char) × List (List Char))
  | file => []
  | dir es =>
    (top, (es.filter (·.2.isDir)).map (·.1), (es.filter (!·.2.isDir)).map (·.1)) ::
      walkEntries top es

/-- The walks of a directory's entries, each from `os.path.join(top, name)`. -/
def walkEntries (top : List Char) :
    List (List Char × FsNode) → List (List Char × List (List Char) × List (List Char))
  | [] => []
  | (n, sub) :: es => walk (join top n) sub ++ walkEntries top es
end

/-- `[os.path.join(root, d) for d in dirs]` over a walk. -/
def children (w : List (List Char × List (List Char) × List (List Char))) : List (List Char) :=
  w.flatMap fun x => x.2.1.map (join x.1)

theorem children_append (v w : List (List Char × List (List Char) × List (List Char))) :
    children (v ++ w) = children v ++ children w := by
  simp [children]

theorem lookup_eq_some_iff {es : List (List Char × FsNode)} (hnd : (es.map Prod.fst).Nodup)
    {n : List Char} {sub : FsNode} : es.lookup n = some sub ↔ (n, sub) ∈ es := by
  induction es with
  | nil => simp
  | cons e es ih =>
    obtain ⟨m, s⟩ := e
    simp only [List.map_cons, List.nodup_cons, List.mem_map] at hnd
    by_cases h : n = m
    · subst h
      have : ∀ s', (n, s') ∉ es := fun s' hs => hnd.1 ⟨_, hs, rfl⟩
      simp [List.lookup_cons, eq_comm, this sub]
    · have hb : (n == m) = false := by simpa using h
      simp [List.lookup_cons, hb, ih hnd.2, h]

theorem find_nil (node : FsNode) : node.find [] = some node := by simp [find]

theorem find_append (node : FsNode) (P p : List (List Char)) :
    node.find (P ++ p) = (node.find P).bind (find · p) := by
  induction P generalizing node with
  | nil => simp [find_nil]
  | cons n P ih =>
    cases node with
    | file => simp [find]
    | dir es => simp only [find, List.cons_append, List.append_eq, Option.bind_assoc, ih]

/-- Opening `n :: p` in a directory opens `p` in its entry named `n`. -/
theorem isDirAt_cons {es : List (List Char × FsNode)} (hnd : (es.map Prod.fst).Nodup)
    (n : List Char) (p : List (List Char)) :
    (dir es).IsDirAt (n :: p) ↔ ∃ sub, (n, sub) ∈ es ∧ sub.IsDirAt p := by
  unfold IsDirAt; rw [find]
  cases h : es.lookup n with
  | none =>
    refine ⟨by simp, fun ⟨sub, hs, _⟩ => ?_⟩
    simp [(lookup_eq_some_iff hnd).mpr hs] at h
  | some sub =>
    have hs := (lookup_eq_some_iff hnd).mp h
    refine ⟨fun hd => ⟨sub, hs, by simpa using hd⟩, fun ⟨sub', hs', hd⟩ => ?_⟩
    obtain rfl : sub' = sub := Option.some.inj (((lookup_eq_some_iff hnd).mpr hs').symm.trans h)
    simpa using hd

theorem children_walk_dir (top : List Char) (es : List (List Char × FsNode)) :
    children ((dir es).walk top) =
      (es.filter (·.2.isDir)).map (join top ∘ Prod.fst) ++ children (walkEntries top es) := by
  simp [walk, children]

mutual
/-- The children a walk collects are the joins of `top` with the paths of the directories
strictly below. -/
theorem mem_children_walk : ∀ (node : FsNode), node.WF → ∀ (top x : List Char),
    x ∈ children (node.walk top) ↔
      ∃ p, p ≠ [] ∧ (∀ n ∈ p, IsName n) ∧ node.IsDirAt p ∧ x = p.foldl join top
  | file, _, top, x => by
    simp only [walk, children, List.flatMap_nil, List.not_mem_nil, false_iff]
    rintro ⟨p, hp, -, hd, -⟩
    obtain ⟨n, p, rfl⟩ := List.exists_cons_of_ne_nil hp
    simp [IsDirAt, find] at hd
  | dir es, hwf, top, x => by
    have hes := mem_children_walkEntries es hwf.2 top x
    rw [children_walk_dir]
    constructor
    · intro hx
      obtain ⟨n, sub, p, hmem, hn, hp, hd, rfl⟩ := hes.mp hx
      exact ⟨n :: p, by simp, by simpa [hn] using hp, (isDirAt_cons hwf.1 n p).mpr ⟨sub, hmem, hd⟩,
        rfl⟩
    · rintro ⟨p, hp, hnames, hd, rfl⟩
      obtain ⟨n, p, rfl⟩ := List.exists_cons_of_ne_nil hp
      obtain ⟨sub, hmem, hd⟩ := (isDirAt_cons hwf.1 n p).mp hd
      exact hes.mpr ⟨n, sub, p, hmem, hnames n (by simp),
        fun m hm => hnames m (by simp [hm]), hd, rfl⟩

/-- `mem_children_walk` for the entries of one directory, the entry itself included. -/
theorem mem_children_walkEntries : ∀ (es : List (List Char × FsNode)), EntriesWF es →
    ∀ (top x : List Char),
      x ∈ (es.filter (·.2.isDir)).map (join top ∘ Prod.fst) ++ children (walkEntries top es) ↔
        ∃ n sub p, (n, sub) ∈ es ∧ IsName n ∧ (∀ m ∈ p, IsName m) ∧ sub.IsDirAt p ∧
          x = p.foldl join (join top n)
  | [], _, top, x => by simp [walkEntries, children]
  | (n, sub) :: es, hwf, top, x => by
    have hsplit : x ∈ (((n, sub) :: es).filter (·.2.isDir)).map (join top ∘ Prod.fst) ++
          children (walkEntries top ((n, sub) :: es)) ↔
        ((sub.isDir = true ∧ x = join top n) ∨ x ∈ children (walk (join top n) sub)) ∨
          x ∈ (es.filter (·.2.isDir)).map (join top ∘ Prod.fst) ++ children (walkEntries top es) := by
      simp only [List.filter_cons, walkEntries, children_append, List.mem_append]
      cases sub.isDir <;> simp only [if_true, if_false, Bool.false_eq_true, false_and, false_or,
        true_and, List.map_cons, List.mem_cons, Function.comp, or_assoc, or_left_comm]
    have h1 := mem_children_walk sub hwf.2.1 (join top n) x
    have h2 := mem_children_walkEntries es hwf.2.2 top x
    have hself : (sub.isDir = true ∧ x = join top n) ∨ x ∈ children (walk (join top n) sub) ↔
        ∃ p, (∀ m ∈ p, IsName m) ∧ sub.IsDirAt p ∧ x = p.foldl join (join top n) := by
      rw [h1]; constructor
      · rintro (⟨hd, rfl⟩ | ⟨p, -, hp, hd, rfl⟩)
        · exact ⟨[], by simp, by simpa [IsDirAt, find_nil] using hd, rfl⟩
        · exact ⟨p, hp, hd, rfl⟩
      · rintro ⟨p, hp, hd, rfl⟩
        rcases eq_or_ne p [] with rfl | hne
        · exact .inl ⟨by simpa [IsDirAt, find_nil] using hd, rfl⟩
        · exact .inr ⟨p, hne, hp, hd, rfl⟩
    rw [hsplit, hself, h2]
    constructor
    · rintro (⟨p, hp, hd, rfl⟩ | ⟨n', sub', p, hmem, hn', hp, hd, rfl⟩)
      · exact ⟨n, sub, p, List.mem_cons_self _ _, hwf.1, hp, hd, rfl⟩
      · exact ⟨n', sub', p, List.mem_cons_of_mem _ hmem, hn', hp, hd, rfl⟩
    · rintro ⟨n', sub', p, hmem, hn', hp, hd, rfl⟩
      rcases List.mem_cons.mp hmem with h | hmem
      · obtain ⟨rfl, rfl⟩ := Prod.mk.inj h
        exact .inl ⟨p, hp, hd, rfl⟩
      · exact .inr ⟨n', sub', p, hmem, hn', hp, hd, rfl⟩
end

theorem EntriesWF.of_mem {es : List (List Char × FsNode)} (hwf : EntriesWF es) {n : List Char}
    {sub : FsNode} (h : (n, sub) ∈ es) : IsName n ∧ sub.WF := by
  induction es with
  | nil => simp at h
  | cons e es ih =>
    obtain ⟨m, s⟩ := e
    rcases List.mem_cons.mp h with h | h
    · obtain ⟨rfl, rfl⟩ := Prod.mk.inj h
      exact ⟨hwf.1, hwf.2.1⟩
    · exact ih hwf.2.2 h

/-- What a path opens in a well-formed tree is well-formed. -/
theorem WF.find {node : FsNode} (hwf : node.WF) {p : List (List Char)} {sub : FsNode}
    (h : node.find p = some sub) : sub.WF := by
  induction p generalizing node with
  | nil => simp only [find_nil, Option.some.injEq] at h; exact h ▸ hwf
  | cons n p ih =>
    cases node with
    | file => simp [FsNode.find] at h
    | dir es =>
      simp only [FsNode.find, Option.bind_eq_some] at h
      obtain ⟨s, hs, hfind⟩ := h
      exact ih ((hwf.2.of_mem ((lookup_eq_some_iff hwf.1).mp hs)).2) hfind

end FsNode

/-- Resolving a path string to its components: relative to `cwd` unless absolute, with `.` and
`..` lexical, as in a tree without symbolic links. -/
def resolve (cwd s : List Char) : List (List Char) :=
  normComps true (if isabs s then s else join cwd s)

theorem resolve_spell {r : List Char} (hr : IsRoot r) {q : List (List Char)}
    (hq : ∀ n ∈ q, IsName n) (cwd : List Char) (t : Bool) :
    resolve cwd (spell r q t) = normComps true r ++ q := by
  have hi : isabs (spell r q t) = true := by simpa [isabs] using spell_head? hr q t
  rw [resolve, if_pos hi, normComps_spell hr hq]

/-- A relative path joined to `a` resolves to what `a` resolves to, then its own components. -/
theorem resolve_join (cwd a : List Char) {b : List Char} (hb : b.head? ≠ some '/') :
    resolve cwd (join a b) = (b.splitOn '/').foldl (normStep true) (resolve cwd a) := by
  unfold resolve
  rw [isabs_join a hb]
  split
  · rw [normComps, foldl_normStep_join a hb]; rfl
  · rename_i ha
    have hj : (join a b).head? ≠ some '/' := fun h => ha (by rw [← isabs_join a hb]; simp [isabs, h])
    have ha' : a.head? ≠ some '/' := fun h => ha (by simp [isabs, h])
    rw [normComps, foldl_normStep_join cwd hj, foldl_normStep_join a hb, normComps,
      foldl_normStep_join cwd ha']

/-- A name joined to `a` resolves one level below `a`. -/
theorem resolve_join_name (cwd a : List Char) {n : List Char} (hn : IsName n) :
    resolve cwd (join a n) = resolve cwd a ++ [n] := by
  rw [resolve_join cwd a hn.head?_ne, splitOn_of_sep_not_mem hn.sep_not_mem, List.foldl_cons,
    List.foldl_nil, normStep_name hn]

/-- The disk: a tree without symbolic links whose directories list distinct names. -/
structure Filesystem where
  root : FsNode
  wf : root.WF

namespace Filesystem

/-- `os.path.isdir` of the absolute path with components `p`. -/
def IsDir (fs : Filesystem) (p : List (List Char)) : Prop := fs.root.IsDirAt p

instance (fs : Filesystem) (p : List (List Char)) : Decidable (fs.IsDir p) :=
  inferInstanceAs (Decidable (fs.root.IsDirAt p))

/-- `os.walk(top)`: nothing when `top` is not a directory (`listdir` fails and the error is
dropped). -/
def walk (fs : Filesystem) (cwd top : List Char) :
    List (List Char × List (List Char) × List (List Char)) :=
  match fs.root.find (resolve cwd top) with
  | some node => node.walk top
  | none => []

/-- `os.listdir(s)`: `none` when `s` is not a directory (`OSError`). -/
def listdir (fs : Filesystem) (cwd s : List Char) : Option (List (List Char)) :=
  match fs.root.find (resolve cwd s) with
  | some (.dir es) => some (es.map Prod.fst)
  | _ => none

/-- `os.path.isdir(s)`. -/
def isdir (fs : Filesystem) (cwd s : List Char) : Bool := (fs.root.find (resolve cwd s)).any FsNode.isDir

/-- `os.walk` from a spelling collects the spellings of the directories strictly below it. -/
theorem mem_children_walk_spell (fs : Filesystem) {r : List Char} (hr : IsRoot r)
    {q : List (List Char)} (hq : ∀ n ∈ q, IsName n) {t : Bool} (ht : t = true → q ≠ [])
    (cwd x : List Char) :
    x ∈ FsNode.children (fs.walk cwd (spell r q t)) ↔
      ∃ p, p ≠ [] ∧ (∀ n ∈ p, IsName n) ∧ fs.IsDir (normComps true r ++ q ++ p) ∧
        x = spell r (q ++ p) false := by
  simp only [walk, IsDir, FsNode.IsDirAt, resolve_spell hr hq]
  cases h : fs.root.find (normComps true r ++ q) with
  | none =>
    simp only [FsNode.find_append _ (normComps true r ++ q), h]
    simp [FsNode.children]
  | some node =>
    simp only [FsNode.find_append _ (normComps true r ++ q), h, Option.some_bind]
    rw [FsNode.mem_children_walk node (fs.wf.find h)]
    refine exists_congr fun p => and_congr_right fun hne => and_congr_right fun hp => ?_
    rw [foldl_join_spell hr hq ht hp hne]
    rfl

end Filesystem
end PantsIde
