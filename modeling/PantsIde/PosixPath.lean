import Mathlib.Data.List.Basic

/-! # `posixpath` on Python strings

The functions of Python's `posixpath` that `ide_gen.py` calls (`join`, `split`, `dirname`,
`basename`, `splitext`, `normpath`, `abspath`, `relpath`), over strings as lists of characters,
and what they compute on the spellings the code builds.

Every directory string of `Project.configure_jvm` is a root directory `r` followed by the
names of a normalized relative path, with or without one trailing separator (`spell`): the
trailing separator is what `os.path.join(base, '')` leaves when a source lies directly in its
base. `split` walks such a spelling up one name at a time and stops at `r` itself
(`split_spell_snoc`); `normpath`, and with it `relpath` and path resolution, ignores the
separator (`normComps_spell`). -/

namespace PantsIde
namespace PosixPath

/-! ## The library functions -/

/-- `posixpath.isabs`. -/
def isabs (s : List Char) : Bool := s.head? = some '/'

/-- `posixpath.join(a, b)`; `join(a, b, c)` is `join (join a b) c`. -/
def join (a b : List Char) : List Char :=
  if b.head? = some '/' then b
  else if a = [] ∨ a.getLast? = some '/' then a ++ b
  else a ++ '/' :: b

/-- `s.rstrip('/')`. -/
def rstrip (s : List Char) : List Char := (s.reverse.dropWhile (· == '/')).reverse

/-- `posixpath.split`: everything up to the last separator, with trailing separators stripped
unless it is all separators, and everything after it. -/
def split (p : List Char) : List Char × List Char :=
  let head := (p.reverse.dropWhile (· != '/')).reverse
  (if head ≠ [] ∧ ¬ head.all (· == '/') then rstrip head else head,
    (p.reverse.takeWhile (· != '/')).reverse)

/-- `posixpath.dirname`, the first part of `split`. -/
def dirname (p : List Char) : List Char := (split p).1

/-- `posixpath.basename`, the second part of `split`. -/
def basename (p : List Char) : List Char := (split p).2

/-- `posixpath.splitext`: the extension runs from the basename's last dot, unless only dots
precede that dot in the basename. -/
def splitext (p : List Char) : List Char × List Char :=
  let name := basename p
  let afterDot := (name.reverse.takeWhile (· != '.')).reverse
  let upToDot := (name.reverse.dropWhile (· != '.')).reverse
  if upToDot.dropLast.any (· != '.') then
    (p.take (p.length - afterDot.length - 1), '.' :: afterDot)
  else (p, [])

/-- One round of `normpath`'s loop over the components of `path.split('/')`; `rooted` is
`initial_slashes`. -/
def normStep (rooted : Bool) (comps : List (List Char)) (comp : List Char) :
    List (List Char) :=
  if comp = [] ∨ comp = ['.'] then comps
  else if comp ≠ ['.', '.'] ∨ (rooted = false ∧ comps = []) ∨ comps.getLast? = some ['.', '.'] then
    comps ++ [comp]
  else comps.dropLast

/-- The components `normpath` keeps. -/
def normComps (rooted : Bool) (path : List Char) : List (List Char) :=
  (path.splitOn '/').foldl (normStep rooted) []

/-- `posixpath.normpath`. -/
def normpath (path : List Char) : List Char :=
  if path = [] then ['.'] else
  let slashes := if path.head? ≠ some '/' then 0
    else if path.take 2 = ['/', '/'] ∧ path.take 3 ≠ ['/', '/', '/'] then 2 else 1
  let out := List.replicate slashes '/' ++ ['/'].intercalate (normComps (slashes ≠ 0) path)
  if out = [] then ['.'] else out

/-- `posixpath.abspath`, with `cwd` for `os.getcwd()`. -/
def abspath (cwd p : List Char) : List Char := normpath (if isabs p then p else join cwd p)

/-- `posixpath.commonprefix` of two lists: with two arguments `min` and `max` are the two
lists, so this is their longest common prefix. -/
def commonPrefix : List (List Char) → List (List Char) → List (List Char)
  | a :: as, b :: bs => if a = b then a :: commonPrefix as bs else []
  | _, _ => []

/-- `posixpath.relpath(path, start)` of Python 2.7. Its `ValueError` on an empty `path` is not
reachable from the code, whose arguments all extend the absolute root. -/
def relpath (cwd path start : List Char) : List Char :=
  let startList := ((abspath cwd start).splitOn '/').filter (· ≠ [])
  let pathList := ((abspath cwd path).splitOn '/').filter (· ≠ [])
  let i := (commonPrefix startList pathList).length
  match List.replicate (startList.length - i) ['.', '.'] ++ pathList.drop i with
  | [] => ['.']
  | c :: cs => cs.foldl join c

/-! ## Normalized paths and their spellings -/

/-- A component of a normalized path: non-empty, without a separator, and not `.` or `..`. -/
def IsName (n : List Char) : Prop := n ≠ [] ∧ '/' ∉ n ∧ n ≠ ['.'] ∧ n ≠ ['.', '.']

instance : DecidablePred IsName := fun _ => inferInstanceAs (Decidable (_ ∧ _))

/-- The relative path with components `q`, `'/'.join(q)`. -/
def relStr : List (List Char) → List Char
  | [] => []
  | [n] => n
  | n :: q => n ++ '/' :: relStr q

/-- The components of a relative path: none for `''`. -/
def relComps (s : List Char) : List (List Char) := if s = [] then [] else s.splitOn '/'

/-- A normalized relative path: `''`, or names joined by single separators. -/
def IsNormRel (s : List Char) : Prop := ∀ n ∈ relComps s, IsName n

instance : DecidablePred IsNormRel := fun _ => inferInstanceAs (Decidable (∀ n ∈ _, _))

/-- A root directory as `Project` is given one: `/`, or an absolute path without a trailing
separator. -/
def IsRoot (r : List Char) : Prop := r = ['/'] ∨ (r.head? = some '/' ∧ r.getLast? ≠ some '/')

instance : DecidablePred IsRoot := fun _ => inferInstanceAs (Decidable (_ ∨ _))

/-- How `os.path.join` spells the directory `q` below the root `r`, with one trailing separator
when `slash`. -/
def spell (r : List Char) (q : List (List Char)) (slash : Bool) : List Char :=
  join r [] ++ relStr q ++ (if slash then ['/'] else [])

/-! ## Components -/

theorem IsName.ne_nil {n : List Char} (h : IsName n) : n ≠ [] := h.1
theorem IsName.sep_not_mem {n : List Char} (h : IsName n) : '/' ∉ n := h.2.1
theorem IsName.head?_ne {n : List Char} (h : IsName n) : n.head? ≠ some '/' :=
  fun hh => h.sep_not_mem (List.mem_of_mem_head? hh)

@[simp] theorem relStr_nil : relStr [] = [] := rfl
@[simp] theorem relStr_singleton (n : List Char) : relStr [n] = n := rfl
theorem relStr_cons_cons (n m : List Char) (q : List (List Char)) :
    relStr (n :: m :: q) = n ++ '/' :: relStr (m :: q) := rfl

theorem relStr_append {q p : List (List Char)} (hq : q ≠ []) (hp : p ≠ []) :
    relStr (q ++ p) = relStr q ++ '/' :: relStr p := by
  induction q with
  | nil => contradiction
  | cons n q ih =>
    cases q with
    | nil => cases p with
      | nil => contradiction
      | cons m p => rfl
    | cons m q => simpa [relStr_cons_cons] using ih (List.cons_ne_nil _ _)

theorem relStr_eq_intercalate (q : List (List Char)) : relStr q = ['/'].intercalate q := by
  induction q with
  | nil => rfl
  | cons n q ih =>
    cases q with
    | nil => simp [List.intercalate]
    | cons m q => simp [relStr_cons_cons, ih, List.intercalate, List.intersperse_cons_cons]

theorem relStr_relComps (s : List Char) : relStr (relComps s) = s := by
  unfold relComps; split
  · simp [*]
  · rw [relStr_eq_intercalate, List.intercalate_splitOn]

/-- Splitting at a separator splits the two sides separately. -/
theorem splitOn_append_sep (a b : List Char) :
    (a ++ '/' :: b).splitOn '/' = a.splitOn '/' ++ b.splitOn '/' := by
  induction a with
  | nil => simp [List.splitOn]
  | cons c a ih =>
    simp only [List.splitOn, List.cons_append, List.splitOnP_cons] at ih ⊢
    split
    · simp [ih]
    · rw [ih]
      cases h : a.splitOnP (· == '/') with
      | nil => exact absurd h (List.splitOnP_ne_nil _ _)
      | cons x xs => rfl

theorem splitOn_relStr {q : List (List Char)} (hq : ∀ n ∈ q, IsName n) (hne : q ≠ []) :
    (relStr q).splitOn '/' = q := by
  rw [relStr_eq_intercalate]
  exact List.splitOn_intercalate _ '/' (fun n hn => (hq n hn).sep_not_mem) hne

theorem relComps_relStr {q : List (List Char)} (hq : ∀ n ∈ q, IsName n) :
    relComps (relStr q) = q := by
  cases q with
  | nil => rfl
  | cons n q =>
    have : relStr (n :: q) ≠ [] := by
      cases q <;> simp [relStr_cons_cons, (hq n (by simp)).ne_nil]
    simp [relComps, this, splitOn_relStr hq]


theorem relStr_ne_nil {q : List (List Char)} (hq : ∀ n ∈ q, IsName n) (hne : q ≠ []) :
    relStr q ≠ [] := by
  intro h
  have := congrArg (relComps) h
  rw [relComps_relStr hq] at this
  exact hne (by simpa [relComps] using this)

theorem relStr_head? {q : List (List Char)} (hq : ∀ n ∈ q, IsName n) :
    (relStr q).head? ≠ some '/' := by
  match q, hq with
  | [], _ => simp
  | [n], hq | n :: _ :: _, hq =>
    have hn := hq n (by simp)
    obtain ⟨c, cs, rfl⟩ := List.exists_cons_of_ne_nil hn.ne_nil
    simp only [relStr, relStr_cons_cons, List.cons_append, List.head?_cons, ne_eq,
      Option.some.injEq]
    rintro rfl; exact hn.sep_not_mem (List.mem_cons_self _ _)

theorem relStr_getLast? {q : List (List Char)} (hq : ∀ n ∈ q, IsName n) :
    (relStr q).getLast? ≠ some '/' := by
  induction q with
  | nil => simp
  | cons n q ih =>
    have ih := ih fun m hm => hq m (by simp [hm])
    cases q with
    | nil => exact fun h => (hq n (by simp)).sep_not_mem (List.mem_of_getLast?_eq_some h)
    | cons m q =>
      obtain ⟨d, ds, hd⟩ := List.exists_cons_of_ne_nil
        (relStr_ne_nil (fun k hk => hq k (by simp [hk])) (List.cons_ne_nil m q))
      rw [relStr_cons_cons, List.getLast?_append_cons, hd, List.getLast?_cons_cons, ← hd]
      exact ih

theorem join_of_getLast {a b : List Char} (ha : a.getLast? = some '/') (hb : b.head? ≠ some '/') :
    join a b = a ++ b := by
  simp [join, hb, ha]

theorem join_of_not_getLast {a b : List Char} (hne : a ≠ []) (ha : a.getLast? ≠ some '/')
    (hb : b.head? ≠ some '/') : join a b = a ++ '/' :: b := by
  simp [join, hb, ha, hne]

/-- `os.path.join(root, '')`: the root followed by exactly one separator. -/
theorem IsRoot.join_nil {r : List Char} (hr : IsRoot r) :
    ∃ x, join r [] = x ++ ['/'] ∧ x.getLast? ≠ some '/' ∧ (if x = [] then ['/'] else x) = r := by
  rcases hr with rfl | ⟨hh, hl⟩
  · exact ⟨[], rfl, by simp, rfl⟩
  · have hne : r ≠ [] := by rintro rfl; simp at hh
    exact ⟨r, join_of_not_getLast hne hl (by simp), hl, by simp [hne]⟩

/-- The one lemma on `split`: the part after the last separator is split off, and what precedes
it loses that separator. -/
theorem split_append_sep {x n : List Char} (hx : x.getLast? ≠ some '/') (hn : '/' ∉ n) :
    split (x ++ '/' :: n) = (if x = [] then ['/'] else x, n) := by
  have hn' : ∀ c ∈ n.reverse, (c != '/') = true := by
    intro c hc; simp only [List.mem_reverse] at hc
    simpa using fun h => hn (by rwa [← h])
  simp only [split, List.reverse_append, List.reverse_cons, List.append_assoc,
    List.singleton_append, List.dropWhile_append_of_pos hn', List.takeWhile_append_of_pos hn']
  simp only [List.dropWhile_cons, List.takeWhile_cons, bne_self_eq_false, Bool.false_eq_true,
    if_false, List.reverse_cons, List.reverse_reverse, List.reverse_nil, List.nil_append]
  rcases List.eq_nil_or_concat x with rfl | ⟨L, c, rfl⟩
  · simp
  · have hc : c ≠ '/' := by simpa using hx
    simp [rstrip, hc]


theorem join_eq_join_nil_append (a : List Char) {b : List Char} (hb : b.head? ≠ some '/') :
    join a b = join a [] ++ b := by
  simp only [join, hb, if_false, List.head?_nil, reduceCtorEq]
  split <;> simp

/-! ## Spellings of directories below a root -/

section Spell
variable {r : List Char} {q p : List (List Char)}

theorem join_relStr (r : List Char) (hq : ∀ n ∈ q, IsName n) :
    join r (relStr q) = spell r q false := by
  simp [spell, join_eq_join_nil_append r (relStr_head? hq)]

theorem getLast?_append_of_ne_nil (a : List Char) {b : List Char} (hb : b ≠ []) :
    (a ++ b).getLast? = b.getLast? := by
  obtain ⟨c, cs, rfl⟩ := List.exists_cons_of_ne_nil hb
  exact List.getLast?_append_cons a c cs

theorem spell_getLast?_ne (hq : ∀ n ∈ q, IsName n) (hne : q ≠ []) :
    (spell r q false).getLast? ≠ some '/' := by
  simpa [spell, getLast?_append_of_ne_nil _ (relStr_ne_nil hq hne)] using relStr_getLast? hq

theorem spell_getLast?_eq (hr : IsRoot r) {t : Bool} (ht : t = false → q = []) :
    (spell r q t).getLast? = some '/' := by
  obtain ⟨x, hx, -, -⟩ := hr.join_nil
  cases t
  · simp [spell, ht rfl, hx]
  · simp [spell]

theorem spell_ne_nil (hr : IsRoot r) (q : List (List Char)) (t : Bool) : spell r q t ≠ [] := by
  obtain ⟨x, hx, -, -⟩ := hr.join_nil
  simp [spell, hx]

/-- Joining `''` to a spelling adds the trailing separator unless the spelling is the root. -/
theorem join_spell_nil (hr : IsRoot r) (hq : ∀ n ∈ q, IsName n) {t : Bool}
    (ht : t = true → q ≠ []) : join (spell r q t) [] = spell r q (decide (q ≠ [])) := by
  rcases eq_or_ne q [] with rfl | hne
  · have : t = false := by cases t <;> simp_all
    subst this
    simpa using @join_of_getLast _ [] (@spell_getLast?_eq r [] hr false fun _ => rfl) (by simp)
  · cases t
    · rw [join_of_not_getLast (spell_ne_nil hr _ _) (spell_getLast?_ne hq hne) (by simp)]
      simp [spell, hne]
    · simpa [hne] using @join_of_getLast _ [] (@spell_getLast?_eq r q hr true (by simp)) (by simp)

/-- `os.path.join(spelling, path)` for a normalized relative `path`. -/
theorem join_spell (hr : IsRoot r) (hq : ∀ n ∈ q, IsName n) (hp : ∀ n ∈ p, IsName n) {t : Bool}
    (ht : t = true → q ≠ []) :
    join (spell r q t) (relStr p) = spell r (q ++ p) (decide (q ≠ [] ∧ p = [])) := by
  rw [join_eq_join_nil_append _ (relStr_head? hp), join_spell_nil hr hq ht]
  rcases eq_or_ne p [] with rfl | hp'
  · simp
  · rcases eq_or_ne q [] with rfl | hq'
    · simp [spell, hp']
    · simp [spell, hp', hq', relStr_append hq' hp']

theorem split_spell_true (hq : ∀ n ∈ q, IsName n) (hne : q ≠ []) :
    split (spell r q true) = (spell r q false, []) := by
  have h : spell r q true = spell r q false ++ '/' :: [] := by simp [spell]
  rw [h, split_append_sep (spell_getLast?_ne hq hne) (by simp)]
  simp [spell, relStr_ne_nil hq hne]

theorem split_spell_snoc (hr : IsRoot r) (hq : ∀ m ∈ q, IsName m) {n : List Char}
    (hn : IsName n) : split (spell r (q ++ [n]) false) = (if q = [] then r else spell r q false, n) := by
  rcases eq_or_ne q [] with rfl | hne
  · obtain ⟨x, hx, hxl, hxr⟩ := hr.join_nil
    have h : spell r ([] ++ [n]) false = x ++ '/' :: n := by simp [spell, hx]
    rw [h, split_append_sep hxl hn.sep_not_mem, hxr]; simp
  · have h : spell r (q ++ [n]) false = spell r q false ++ '/' :: n := by
      simp [spell, relStr_append hne (List.cons_ne_nil n [])]
    rw [h, split_append_sep (spell_getLast?_ne hq hne) hn.sep_not_mem]
    simp [hne, spell_ne_nil hr]

theorem split_spell_nil (hr : IsRoot r) : split (spell r [] false) = (r, []) := by
  obtain ⟨x, hx, hxl, hxr⟩ := hr.join_nil
  have h : spell r [] false = x ++ '/' :: [] := by simp [spell, hx]
  rw [h, split_append_sep hxl (by simp), hxr]

/-- Joining names one at a time to a spelling spells the directory below it. -/
theorem foldl_join_spell (hr : IsRoot r) (hq : ∀ n ∈ q, IsName n) {t : Bool}
    (ht : t = true → q ≠ []) (hp : ∀ n ∈ p, IsName n) (hne : p ≠ []) :
    p.foldl join (spell r q t) = spell r (q ++ p) false := by
  induction p generalizing q t with
  | nil => contradiction
  | cons n p ih =>
    have hn := hp n (by simp)
    have hstep : join (spell r q t) n = spell r (q ++ [n]) false := by
      simpa using join_spell hr hq (List.forall_mem_singleton.2 hn) ht
    rw [List.foldl_cons, hstep]
    rcases eq_or_ne p [] with rfl | hp'
    · rfl
    · rw [ih (List.forall_mem_append.2 ⟨hq, List.forall_mem_singleton.2 hn⟩) (by simp)
        (fun m hm => hp m (by simp [hm])) hp']
      simp

/-! ## `normpath` and `relpath` on spellings -/

theorem normStep_nil (b : Bool) (comps : List (List Char)) : normStep b comps [] = comps := by
  simp [normStep]

theorem normStep_name {n : List Char} (hn : IsName n) (b : Bool) (comps : List (List Char)) :
    normStep b comps n = comps ++ [n] := by
  obtain ⟨h1, -, h3, h4⟩ := hn
  simp [normStep, h1, h3, h4]

/-- `normpath` keeps names and drops empty components. -/
theorem foldl_normStep {l : List (List Char)} (hl : ∀ c ∈ l, c = [] ∨ IsName c) (b : Bool)
    (comps : List (List Char)) : l.foldl (normStep b) comps = comps ++ l.filter (· ≠ []) := by
  induction l generalizing comps with
  | nil => simp
  | cons c l ih =>
    have ih := ih fun d hd => hl d (by simp [hd])
    rcases hl c (by simp) with rfl | hc
    · simp [normStep_nil, ih]
    · simp [normStep_name hc, ih, hc.ne_nil]

theorem splitOn_relStr_pieces {q : List (List Char)} (hq : ∀ n ∈ q, IsName n) (tail : List Char)
    (htail : tail = [] ∨ tail = ['/']) :
    (∀ c ∈ (relStr q ++ tail).splitOn '/', c = [] ∨ IsName c) ∧
      ((relStr q ++ tail).splitOn '/').filter (· ≠ []) = q := by
  have hq' : q.filter (· ≠ []) = q := List.filter_eq_self.mpr fun n hn => by simpa using (hq n hn).ne_nil
  rcases eq_or_ne q [] with rfl | hne
  · rcases htail with rfl | rfl <;> simp [List.splitOn]
  · rcases htail with rfl | rfl
    · simp only [List.append_nil, splitOn_relStr hq hne, hq', and_true]
      exact fun c hc => .inr (hq c hc)
    · rw [splitOn_append_sep, splitOn_relStr hq hne]
      refine ⟨fun c hc => ?_, by simpa using hq'⟩
      simp only [List.splitOn_nil, List.mem_append, List.mem_singleton] at hc
      exact hc.elim (fun h => .inr (hq c h)) .inl

theorem isabs_join (a : List Char) {b : List Char} (hb : b.head? ≠ some '/') :
    isabs (join a b) = isabs a := by
  rw [join_eq_join_nil_append a hb]
  rcases a with _ | ⟨c, a⟩
  · simpa [join, isabs] using hb
  · obtain ⟨t, ht⟩ : ∃ t, join (c :: a) [] = c :: t := by
      simp only [join, List.head?_nil, reduceCtorEq, if_false, List.cons_ne_nil, false_or]
      split <;> simp
    simp [ht, isabs]

theorem splitOn_of_sep_not_mem {n : List Char} (hn : '/' ∉ n) : n.splitOn '/' = [n] :=
  List.splitOnP_eq_single _ _ fun _ hc h => hn (eq_of_beq h ▸ hc)

/-- `normpath` reads `join a b`, for `b` relative, as the components of `a` then those of `b`. -/
theorem foldl_normStep_join (a : List Char) {b : List Char} (hb : b.head? ≠ some '/') (r : Bool)
    (acc : List (List Char)) :
    ((join a b).splitOn '/').foldl (normStep r) acc =
      (b.splitOn '/').foldl (normStep r) ((a.splitOn '/').foldl (normStep r) acc) := by
  unfold join
  rw [if_neg hb]
  split
  · rename_i h
    rcases h with rfl | h
    · simp [List.splitOn, normStep_nil]
    · obtain ⟨a', rfl⟩ := List.getLast?_eq_some_iff.1 h
      have ha : (a' ++ ['/']).splitOn '/' = a'.splitOn '/' ++ [[]] := by
        simpa using splitOn_append_sep a' []
      rw [List.append_assoc, List.singleton_append, splitOn_append_sep, ha, List.foldl_append,
        List.foldl_append]
      simp [normStep_nil]
  · rw [splitOn_append_sep, List.foldl_append]

/-- A spelling resolves to the root's components followed by its names: the trailing separator
disappears. -/
theorem normComps_spell (hr : IsRoot r) (hq : ∀ n ∈ q, IsName n) (t : Bool) :
    normComps true (spell r q t) = normComps true r ++ q := by
  obtain ⟨x, hx, -, hxr⟩ := hr.join_nil
  have h : spell r q t = x ++ '/' :: (relStr q ++ if t then ['/'] else []) := by simp [spell, hx]
  have hroot : normComps true r = (x.splitOn '/').foldl (normStep true) [] := by
    rw [← hxr]; split
    · subst x; rfl
    · rfl
  obtain ⟨hpieces, hfilter⟩ := splitOn_relStr_pieces hq (if t then ['/'] else [])
    (by cases t <;> simp)
  rw [normComps, h, splitOn_append_sep, List.foldl_append, ← hroot, foldl_normStep hpieces, hfilter]

theorem splitOnP_pieces (p : Char → Bool) (s : List Char) :
    ∀ l ∈ s.splitOnP p, ∀ c ∈ l, p c = false := by
  induction s with
  | nil => simp
  | cons c s ih =>
    rw [List.splitOnP_cons]
    split
    · simpa using ih
    · obtain ⟨d, ds, hd⟩ := List.exists_cons_of_ne_nil (List.splitOnP_ne_nil p s)
      rw [hd] at ih ⊢
      simp only [List.modifyHead_cons, List.mem_cons, forall_eq_or_imp] at ih ⊢
      exact ⟨⟨by simpa using ‹¬p c = true›, ih.1⟩, ih.2⟩

theorem sep_not_mem_of_mem_splitOn {s l : List Char} (h : l ∈ s.splitOn '/') : '/' ∉ l :=
  fun hl => by simpa using splitOnP_pieces (· == '/') s l h '/' hl

/-- The components `normpath` keeps are non-empty and separator-free. -/
theorem normComps_wf (b : Bool) (s : List Char) : ∀ l ∈ normComps b s, l ≠ [] ∧ '/' ∉ l := by
  suffices ∀ (pieces acc : List (List Char)), (∀ c ∈ pieces, '/' ∉ c) →
      (∀ l ∈ acc, l ≠ [] ∧ '/' ∉ l) → ∀ l ∈ pieces.foldl (normStep b) acc, l ≠ [] ∧ '/' ∉ l from
    this _ [] (fun _ => sep_not_mem_of_mem_splitOn) (by simp)
  intro pieces
  induction pieces with
  | nil => exact fun _ _ h => h
  | cons c pieces ih =>
    intro acc hp hacc
    refine ih _ (fun d hd => hp d (by simp [hd])) ?_
    unfold normStep; split
    · exact hacc
    · rename_i hc
      split
      · simp only [List.mem_append, List.mem_singleton]
        rintro l (hl | rfl)
        · exact hacc l hl
        · exact ⟨fun h => hc (.inl h), hp _ (List.mem_cons_self _ _)⟩
      · exact fun l hl => hacc l (List.dropLast_subset _ hl)

theorem splitOn_replicate_append (k : Nat) (s : List Char) :
    (List.replicate k '/' ++ s).splitOn '/' = List.replicate k [] ++ s.splitOn '/' := by
  induction k with
  | zero => rfl
  | succ k ih =>
    rw [List.replicate_succ, List.cons_append, ← List.nil_append ('/' :: _), splitOn_append_sep, ih]
    simp [List.replicate_succ]

/-- `normpath` of an absolute path is its separators followed by the kept components. -/
theorem normpath_of_isabs {s : List Char} (hs : isabs s = true) :
    ∃ k, normpath s = List.replicate (k + 1) '/' ++ ['/'].intercalate (normComps true s) := by
  have hs' : s.head? = some '/' := by simpa [isabs] using hs
  have hne : s ≠ [] := by rintro rfl; simp at hs'
  unfold normpath
  simp only [hne, if_false, hs', ne_eq, not_true_eq_false]
  split
  · exact ⟨1, by simp⟩
  · exact ⟨0, by simp⟩

theorem components_normpath {s : List Char} (hs : isabs s = true) :
    ((normpath s).splitOn '/').filter (· ≠ []) = normComps true s := by
  obtain ⟨k, hk⟩ := normpath_of_isabs hs
  have hwf := normComps_wf true s
  rw [hk, splitOn_replicate_append, List.filter_append]
  rcases eq_or_ne (normComps true s) [] with h | h
  · simp [h, List.intercalate]
  · rw [List.splitOn_intercalate _ '/' (fun l hl => (hwf l hl).2) h]
    simpa [List.filter_replicate] using fun l hl => (hwf l hl).1

theorem commonPrefix_append (l m : List (List Char)) : commonPrefix l (l ++ m) = l := by
  induction l with
  | nil => cases m <;> rfl
  | cons a l ih => simp [commonPrefix, ih]

theorem foldl_join_relStr {acc cs : List (List Char)} (hacc : ∀ n ∈ acc, IsName n)
    (hne : acc ≠ []) (hcs : ∀ n ∈ cs, IsName n) : cs.foldl join (relStr acc) = relStr (acc ++ cs) := by
  induction cs generalizing acc with
  | nil => simp
  | cons c cs ih =>
    have hc := hcs c (by simp)
    have hhead : c.head? ≠ some '/' := by simpa using relStr_head? (List.forall_mem_singleton.2 hc)
    have hstep : join (relStr acc) c = relStr (acc ++ [c]) := by
      rw [join_of_not_getLast (relStr_ne_nil hacc hne) (relStr_getLast? hacc) hhead,
        relStr_append hne (by simp)]; rfl
    rw [List.foldl_cons, hstep,
      ih (List.forall_mem_append.2 ⟨hacc, List.forall_mem_singleton.2 hc⟩) (by simp)
        (fun n hn => hcs n (by simp [hn]))]
    simp

theorem spell_head? (hr : IsRoot r) (q : List (List Char)) (t : Bool) :
    (spell r q t).head? = some '/' := by
  obtain ⟨x, hx, -, hxr⟩ := hr.join_nil
  have hrh : r.head? = some '/' := by rcases hr with rfl | ⟨hh, -⟩ <;> simp [*]
  simp only [spell, hx, List.append_assoc]
  split at hxr
  · subst x; rfl
  · subst hxr; rw [List.head?_append_of_ne_nil _ ‹_›, hrh]

/-- `os.path.relpath` of a spelling below another is the names between them. -/
theorem relpath_spell (hr : IsRoot r) {b : List (List Char)} (hb : ∀ n ∈ b, IsName n)
    (hp : ∀ n ∈ p, IsName n) (hne : p ≠ []) (cwd : List Char) (t t' : Bool) :
    relpath cwd (spell r (b ++ p) t) (spell r b t') = relStr p := by
  have habs : ∀ q t, (∀ n ∈ q, IsName n) →
      ((abspath cwd (spell r q t)).splitOn '/').filter (· ≠ []) = normComps true r ++ q := by
    intro q t hq
    have hi : isabs (spell r q t) = true := by simpa [isabs] using spell_head? hr q t
    rw [abspath, if_pos hi, components_normpath hi, normComps_spell hr hq]
  have hbp : ∀ n ∈ b ++ p, IsName n := List.forall_mem_append.2 ⟨hb, hp⟩
  simp only [relpath, habs _ _ hb, habs _ _ hbp, ← List.append_assoc, commonPrefix_append,
    Nat.sub_self, List.replicate_zero, List.nil_append, List.drop_left]
  obtain ⟨c, cs, rfl⟩ := List.exists_cons_of_ne_nil hne
  simp only
  rw [← relStr_singleton c, foldl_join_relStr (by simpa using hp c (by simp)) (by simp)
    (fun n hn => hp n (by simp [hn]))]
  rfl

theorem spell_false_inj (hq : ∀ n ∈ q, IsName n) (hp : ∀ n ∈ p, IsName n) :
    spell r q false = spell r p false ↔ q = p := by
  refine ⟨fun h => ?_, fun h => h ▸ rfl⟩
  simp only [spell, Bool.false_eq_true, if_false, List.append_nil,
    List.append_cancel_left_eq] at h
  rw [← relComps_relStr hq, h, relComps_relStr hp]

theorem spell_true_ne_false (hr : IsRoot r) (hq : ∀ n ∈ q, IsName n) (hne : q ≠ [])
    (p : List (List Char)) : spell r p true ≠ spell r q false := by
  intro h
  have hlast : (spell r p true).getLast? = some '/' := spell_getLast?_eq hr (by simp)
  exact spell_getLast?_ne hq hne (h ▸ hlast)

/-- A spelling with names below the root is longer than the root. -/
theorem spell_ne_root (hr : IsRoot r) (hq : ∀ n ∈ q, IsName n) (hne : q ≠ []) :
    spell r q false ≠ r := by
  obtain ⟨x, hx, -, hxr⟩ := hr.join_nil
  intro h
  have hlen := congrArg List.length h
  have hr' : r.length ≤ x.length + 1 := by rw [← hxr]; split <;> simp
  have hq' : 0 < (relStr q).length := List.length_pos.2 (relStr_ne_nil hq hne)
  simp only [spell, hx, if_false, List.append_nil, List.length_append, List.length_singleton] at hlen
  omega

end Spell

/-! ## Normalized relative paths -/

/-- A round of `os.path.split` either shortens its string or leaves it as it is. -/
theorem split_fst_eq_or_length_lt (p : List Char) :
    (split p).1 = p ∨ (split p).1.length < p.length := by
  have hr : ∀ s : List Char, (rstrip s).length ≤ s.length := fun s => by
    simpa [rstrip] using (List.dropWhile_suffix (· == '/') :
      s.reverse.dropWhile (· == '/') <:+ s.reverse).length_le
  rcases List.eq_nil_or_concat p with rfl | ⟨p, c, rfl⟩
  · exact .inl rfl
  rw [List.concat_eq_append]
  by_cases hc : c = '/'
  · subst hc
    have hhead : ((p ++ ['/']).reverse.dropWhile (· != '/')).reverse = p ++ ['/'] := by simp
    simp only [split, hhead]
    by_cases hall : (p ++ ['/']).all (· == '/') = true
    · exact .inl (by rw [if_neg fun h => h.2 hall])
    · refine .inr ?_
      have : rstrip (p ++ ['/']) = rstrip p := by simp [rstrip]
      rw [if_pos ⟨by simp, hall⟩, this]
      simpa using Nat.lt_succ_of_le (hr p)
  · refine .inr ?_
    have hhead : ((p ++ [c]).reverse.dropWhile (· != '/')).reverse.length ≤ p.length := by
      simpa [hc] using (List.dropWhile_suffix (· != '/') :
        p.reverse.dropWhile (· != '/') <:+ p.reverse).length_le
    simp only [split]
    split_ifs
    · exact lt_of_le_of_lt (hr _) (by simpa using Nat.lt_succ_of_le hhead)
    · simpa using Nat.lt_succ_of_le hhead

theorem split_of_sep_not_mem {n : List Char} (hn : '/' ∉ n) : split n = ([], n) := by
  have hn' : ∀ c ∈ n.reverse, (c != '/') = true := by
    intro c hc; simp only [List.mem_reverse] at hc
    simpa using fun h => hn (by rwa [← h])
  simp [split, List.dropWhile_eq_nil_iff.2 hn', List.takeWhile_eq_self_iff.2 hn']

theorem dirname_relStr {q : List (List Char)} (hq : ∀ n ∈ q, IsName n) :
    dirname (relStr q) = relStr q.dropLast := by
  rcases List.eq_nil_or_concat q with rfl | ⟨q, n, rfl⟩
  · rfl
  rw [List.concat_eq_append] at hq ⊢
  have hn : IsName n := hq n (by simp)
  have hq' : ∀ m ∈ q, IsName m := fun m hm => hq m (by simp [hm])
  rcases eq_or_ne q [] with rfl | hne
  · simp [dirname, split_of_sep_not_mem hn.sep_not_mem]
  · rw [relStr_append hne (List.cons_ne_nil n []), relStr_singleton, dirname,
      split_append_sep (relStr_getLast? hq') hn.sep_not_mem]
    simp [relStr_ne_nil hq' hne]

/-- The directory of a normalized relative path is one. -/
theorem IsNormRel.dirname {s : List Char} (h : IsNormRel s) :
    IsNormRel (dirname s) ∧ relComps (dirname s) = (relComps s).dropLast := by
  have hd : PosixPath.dirname s = PosixPath.relStr (relComps s).dropLast := by
    rw [← dirname_relStr h, relStr_relComps]
  have hdrop : ∀ n ∈ (relComps s).dropLast, IsName n := fun n hn => h n (List.dropLast_subset _ hn)
  rw [hd, relComps_relStr hdrop]
  exact ⟨by rw [IsNormRel, relComps_relStr hdrop]; exact hdrop, rfl⟩

/-- `os.path.join(root_dir, source_base, path)` for a normalized relative base and path: it
ends with a separator exactly when the base is not `''` and the path is. -/
theorem join_join_spell {r b path : List Char} (hr : IsRoot r) (hb : IsNormRel b)
    (hp : IsNormRel path) :
    join (join r b) path = spell r (relComps b ++ relComps path)
      (decide (relComps b ≠ [] ∧ relComps path = [])) := by
  rw [← relStr_relComps b, join_relStr r hb, ← relStr_relComps path,
    join_spell hr hb hp (by simp), relStr_relComps, relStr_relComps]

end PosixPath
end PantsIde
