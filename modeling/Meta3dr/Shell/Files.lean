import Meta3dr.Shell.Words

/-!
# File trees and paths

A file tree assigns nodes to paths from its root. A word denotes a path: it is walked component
by component from the root or from the working directory. Pathname expansion replaces a word
with pattern characters by the paths that match it, in bytewise order, and keeps a word that
matches nothing.

## Main definitions

* `Path`, `Node`, `Files`: paths, directory entries and file trees
* `pathOf cwd w`, `pathText p`: the path a word denotes, and the word that denotes a path
* `Files.find fs dir suffix`: the regular files below a directory with a given ending
* `Files.put`, `Files.del`, `Files.mkdirs`, `Files.extract`: changes of a tree
* `Files.Closed`: every entry lies in a directory
* `expandWord ls isThere cwd w`: pathname expansion of one word

## Main results

* `pathOf_pathText`: the text of a path of plain names denotes it
* `Files.get_mkdirs`: making directories touches only the prefixes of their path
* `Files.Closed.put`, `Files.Closed.del`: changes keep a tree closed
* `expandWord_only`: a word that no other name matches stays as it is
-/

namespace Shell

/-- A path from the root of a tree. -/
abbrev Path := List String

/-- A directory entry. -/
inductive Node
  | file (content : Text)
  | dir
  | link (target : Text)
  | special
  deriving DecidableEq

/-- A file tree; its root is a directory and has no entry. -/
abbrev Files := AList fun _ : Path => Node

/-! ## Words and paths -/

/-- The components of a word, split at slashes. -/
def components (w : Text) : List String := (w.splitOn '/').map String.ofList

/-- Walk components from a directory. -/
def walk : Path → List String → Path
  | base, [] => base
  | base, c :: cs =>
    if c = "" ∨ c = "." then walk base cs
    else if c = ".." then walk base.dropLast cs
    else walk (base ++ [c]) cs

/-- The path a word denotes in the working directory `cwd`. -/
def pathOf (cwd : Path) (w : Text) : Path :=
  walk (if w.head? = some '/' then [] else cwd) (components w)

/-- The absolute word for a path. -/
def pathText (p : Path) : Text := p.flatMap fun c => '/' :: c.toList

/-- A component that denotes an entry of its directory. -/
def PlainName (c : String) : Prop := c ≠ "" ∧ c ≠ "." ∧ c ≠ ".." ∧ '/' ∉ c.toList

instance (c : String) : Decidable (PlainName c) := inferInstanceAs (Decidable (_ ∧ _ ∧ _ ∧ _))

theorem walk_plain (base p : Path) (hp : ∀ c ∈ p, PlainName c) : walk base p = base ++ p := by
  induction p generalizing base with
  | nil => simp [walk]
  | cons c p ih =>
    obtain ⟨h₁, h₂, h₃, -⟩ := hp c List.mem_cons_self
    simp only [walk, h₁, h₂, h₃, or_self, if_false]
    rw [ih _ fun d hd => hp d (List.mem_cons_of_mem _ hd)]
    simp

theorem components_pathText (p : Path) (hp : ∀ c ∈ p, PlainName c) :
    components (pathText p) = "" :: p := by
  have hsep : pathText p = [('/' : Char)].intercalate ([] :: p.map String.toList) := by
    clear hp
    induction p with
    | nil => rfl
    | cons c p ih =>
      cases p <;> simp_all [pathText, List.intercalate]
  rw [components, hsep, List.splitOn_intercalate]
  · simp [Function.comp_def]
  · intro l hl
    rcases List.mem_cons.mp hl with rfl | hl
    · simp
    · obtain ⟨c, hc, rfl⟩ := List.mem_map.mp hl
      exact (hp c hc).2.2.2
  · simp

/-- The text of a path of plain names denotes it, in every working directory. -/
theorem pathOf_pathText (cwd p : Path) (hne : p ≠ []) (hp : ∀ c ∈ p, PlainName c) :
    pathOf cwd (pathText p) = p := by
  have hhead : (pathText p).head? = some '/' := by
    rcases p with _ | ⟨c, p⟩
    · exact absurd rfl hne
    · rfl
  rw [pathOf, hhead, if_pos rfl, components_pathText p hp]
  simp [walk, walk_plain [] p hp]

/-- A name in the working directory denotes the entry of that name. -/
theorem pathOf_name (cwd : Path) {c : String} (hc : PlainName c) :
    pathOf cwd c.toList = cwd ++ [c] := by
  have hhead : c.toList.head? ≠ some '/' := fun h =>
    hc.2.2.2 (List.mem_of_mem_head? (by simp [h]))
  have hsplit : components c.toList = [c] := by
    have hc' : ∀ l ∈ [c.toList], '/' ∉ l := by simpa using hc.2.2.2
    have h := List.splitOn_intercalate '/' hc' (by simp)
    simp only [List.intercalate_singleton] at h
    simp [components, h]
  rw [pathOf, if_neg hhead, hsplit, walk_plain _ _ (by simpa using hc)]

/-! ## Trees -/

namespace Files

/-- The entry at a path; the root is a directory. -/
def get (fs : Files) (p : Path) : Option Node := if p = [] then some .dir else fs.lookup p

/-- The names in a directory. -/
def names (fs : Files) (dir : Path) : List String :=
  fs.entries.filterMap fun x => if x.1.dropLast = dir then x.1.getLast? else none

/-- The regular files below a directory whose names have the given ending. -/
def find (fs : Files) (dir : Path) (suffix : Text) : List Path :=
  fs.entries.filterMap fun x => match x.2 with
    | .file _ =>
      if dir.isPrefixOf x.1 && (x.1.drop dir.length).getLast?.any (fun n => suffix.isSuffixOf n.toList)
      then some x.1 else none
    | _ => none

@[simp] theorem get_nil (fs : Files) : fs.get [] = some .dir := rfl

theorem get_of_ne_nil (fs : Files) {p : Path} (h : p ≠ []) : fs.get p = fs.lookup p := if_neg h

theorem get_insert_self (fs : Files) {p : Path} (n : Node) (h : p ≠ []) :
    Files.get (fs.insert p n) p = some n := by
  rw [get_of_ne_nil _ h, AList.lookup_insert]

theorem get_insert_ne (fs : Files) {p q : Path} (n : Node) (h : q ≠ p) :
    Files.get (fs.insert p n) q = fs.get q := by
  unfold get
  rw [AList.lookup_insert_ne h]

theorem get_erase_self (fs : Files) {p : Path} (h : p ≠ []) : Files.get (fs.erase p) p = none := by
  rw [get_of_ne_nil _ h, AList.lookup_erase]

theorem get_erase_ne (fs : Files) {p q : Path} (h : q ≠ p) :
    Files.get (fs.erase p) q = fs.get q := by
  unfold get
  rw [AList.lookup_erase_ne h]

theorem names_eq (fs : Files) (dir : Path) :
    fs.names dir = fs.keys.filterMap fun p => if p.dropLast = dir then p.getLast? else none := by
  rw [names, AList.keys, List.keys, List.filterMap_map]
  rfl

/-- A name in a directory stands for one entry. -/
theorem nodup_names (fs : Files) (dir : Path) : (fs.names dir).Nodup := by
  rw [names_eq]
  refine fs.keys_nodup.filterMap fun p q n hp hq => ?_
  simp only [Option.mem_def, Option.ite_none_right_eq_some] at hp hq
  obtain ⟨hp₁, hp₂⟩ := hp
  obtain ⟨hq₁, hq₂⟩ := hq
  rw [← List.dropLast_append_getLast? n hp₂, ← List.dropLast_append_getLast? n hq₂, hp₁, hq₁]

/-- The names in a directory are those of its entries. -/
theorem get_of_mem_names {fs : Files} {dir : Path} {n : String} (h : n ∈ fs.names dir) :
    fs.get (dir ++ [n]) ≠ none := by
  rw [names_eq, List.mem_filterMap] at h
  obtain ⟨p, hp, hn⟩ := h
  simp only [Option.ite_none_right_eq_some] at hn
  obtain ⟨rfl, hn⟩ := hn
  rw [List.dropLast_append_getLast? n hn, get_of_ne_nil _ (by rintro rfl; simp at hn),
    Option.ne_none_iff_isSome, AList.lookup_isSome]
  exact hp

theorem mem_names {fs : Files} {dir : Path} {n : String} :
    n ∈ fs.names dir ↔ fs.get (dir ++ [n]) ≠ none := by
  refine ⟨get_of_mem_names, fun h => ?_⟩
  have hne : dir ++ [n] ≠ [] := by simp
  rw [get_of_ne_nil _ hne, Option.ne_none_iff_isSome, AList.lookup_isSome] at h
  rw [names_eq, List.mem_filterMap]
  exact ⟨dir ++ [n], h, by simp⟩

/-- The missing directories down to a path, from the top, as far as directories can be made. -/
def missingDirs (fs : Files) (p : Path) : List Path :=
  (((List.range p.length).map fun n => p.take (n + 1)).takeWhile fun q =>
    fs.get q = none ∨ fs.get q = some .dir).filter fun q => fs.get q = none

/-- An entry in an existing directory; a directory is not replaced. -/
def put (fs : Files) (p : Path) (n : Node) : Files :=
  if fs.get p.dropLast = some .dir ∧ fs.get p ≠ some .dir then fs.insert p n else fs

/-- An entry that is no directory removed. -/
def del (fs : Files) (p : Path) : Files := if fs.get p = some .dir then fs else fs.erase p

/-- Make a directory and the missing ones above it. -/
def mkdirs (fs : Files) (p : Path) : Files :=
  (fs.missingDirs p).foldl (fun fs q => fs.put q .dir) fs

theorem ne_nil_of_put {fs : Files} {p : Path} (h : fs.get p ≠ some .dir) : p ≠ [] := by
  rintro rfl
  exact h (get_nil fs)

theorem get_put_self {fs : Files} {p : Path} (n : Node) (hdir : fs.get p.dropLast = some .dir)
    (hp : fs.get p ≠ some .dir) : (fs.put p n).get p = some n := by
  rw [put, if_pos ⟨hdir, hp⟩, get_insert_self _ _ (ne_nil_of_put hp)]

theorem get_put_ne (fs : Files) {p q : Path} (n : Node) (h : q ≠ p) :
    (fs.put p n).get q = fs.get q := by
  unfold put
  split_ifs
  · exact get_insert_ne fs n h
  · rfl

theorem get_del_self {fs : Files} {p : Path} (hp : fs.get p ≠ some .dir) :
    (fs.del p).get p = none := by
  rw [del, if_neg hp, get_erase_self _ (ne_nil_of_put hp)]

theorem get_del_ne (fs : Files) {p q : Path} (h : q ≠ p) : (fs.del p).get q = fs.get q := by
  unfold del
  split_ifs
  · rfl
  · exact get_erase_ne fs h

theorem prefix_of_mem_missingDirs {fs : Files} {p q : Path} (h : q ∈ fs.missingDirs p) :
    q <+: p := by
  have hq := (List.takeWhile_prefix _).subset (List.mem_of_mem_filter h)
  obtain ⟨n, -, rfl⟩ := List.mem_map.mp hq
  exact List.take_prefix _ _

/-- Making directories touches only the prefixes of their path. -/
theorem get_mkdirs (fs : Files) {p q : Path} (h : ¬ q <+: p) :
    (fs.mkdirs p).get q = fs.get q := by
  have hmem : ∀ d ∈ fs.missingDirs p, q ≠ d := fun d hd he =>
    h (he ▸ prefix_of_mem_missingDirs hd)
  unfold mkdirs
  generalize fs.missingDirs p = ds at hmem
  induction ds generalizing fs with
  | nil => rfl
  | cons d ds ih =>
    rw [List.foldl_cons, ih _ fun e he => hmem e (List.mem_cons_of_mem _ he)]
    exact get_put_ne fs .dir (hmem d List.mem_cons_self)

theorem mkdirs_of_dir {fs : Files} {a : String} (h : fs.get [a] = some .dir) :
    fs.mkdirs [a] = fs := by
  simp [mkdirs, missingDirs, List.range_succ, h]

/-- One directory made in an existing one. -/
theorem mkdirs_pair {fs : Files} {a b : String} (ha : fs.get [a] = some .dir)
    (hb : fs.get [a, b] = none) : fs.mkdirs [a, b] = fs.insert [a, b] .dir := by
  simp [mkdirs, missingDirs, List.range_succ, List.takeWhile, put, ha, hb]

theorem mem_find {fs : Files} {dir p : Path} {suffix : Text} :
    p ∈ fs.find dir suffix ↔ (∃ t, fs.lookup p = some (.file t)) ∧ dir <+: p ∧
      ∃ n ∈ (p.drop dir.length).getLast?, suffix <:+ n.toList := by
  simp only [find, List.mem_filterMap, Option.mem_def]
  constructor
  · rintro ⟨⟨q, n⟩, hmem, hq⟩
    cases n with
    | file t =>
      simp only [Option.ite_none_right_eq_some, Bool.and_eq_true, List.isPrefixOf_iff_prefix,
        Option.any_eq_true, List.isSuffixOf_iff_suffix, Option.some.injEq] at hq
      obtain ⟨⟨hdir, hname⟩, rfl⟩ := hq
      exact ⟨⟨t, AList.mem_lookup_iff.mpr hmem⟩, hdir, hname⟩
    | _ => simp at hq
  · rintro ⟨⟨t, ht⟩, hdir, hname⟩
    refine ⟨⟨p, .file t⟩, AList.mem_lookup_iff.mp ht, ?_⟩
    simp only [Option.ite_none_right_eq_some, Bool.and_eq_true, List.isPrefixOf_iff_prefix,
      Option.any_eq_true, List.isSuffixOf_iff_suffix, and_true]
    exact ⟨hdir, hname⟩

/-- The files of an archive added to a tree, with the directories they are in. -/
def extract (fs : Files) (members : List (Path × Text)) : Files :=
  members.foldl (fun fs m => (fs.mkdirs m.1.dropLast).put m.1 (.file m.2)) fs

/-- Every entry lies in a directory. -/
def Closed (fs : Files) : Prop := ∀ p, fs.get p ≠ none → fs.get p.dropLast = some .dir

theorem closed_empty : Closed ∅ := by
  intro p hp
  by_cases h : p = []
  · simp [h]
  · exact absurd (by simp [get, h]) hp

theorem Closed.put {fs : Files} (h : fs.Closed) (p : Path) (n : Node) : (fs.put p n).Closed := by
  intro q hq
  by_cases hput : fs.get p.dropLast = some .dir ∧ fs.get p ≠ some .dir
  · have hne : p.dropLast ≠ p := fun he => hput.2 (he ▸ hput.1)
    by_cases hqp : q = p
    · subst hqp
      rw [get_put_ne _ _ hne]
      exact hput.1
    · rw [get_put_ne _ _ hqp] at hq
      have hdir := h q hq
      have hne' : q.dropLast ≠ p := fun he => hput.2 (he ▸ hdir)
      rw [get_put_ne _ _ hne']
      exact hdir
  · rw [Files.put, if_neg hput] at hq ⊢
    exact h q hq

theorem Closed.del {fs : Files} (h : fs.Closed) (p : Path) : (fs.del p).Closed := by
  intro q hq
  by_cases hp : fs.get p = some .dir
  · rw [Files.del, if_pos hp] at hq ⊢
    exact h q hq
  · have hqp : q ≠ p := by
      rintro rfl
      exact hq (get_del_self hp)
    rw [get_del_ne _ hqp] at hq
    have hdir := h q hq
    have hne : q.dropLast ≠ p := fun he => hp (he ▸ hdir)
    rw [get_del_ne _ hne]
    exact hdir

theorem Closed.mkdirs {fs : Files} (h : fs.Closed) (p : Path) : (fs.mkdirs p).Closed := by
  unfold Files.mkdirs
  generalize fs.missingDirs p = ds
  induction ds generalizing fs with
  | nil => exact h
  | cons d ds ih => exact ih (h.put d .dir)

theorem Closed.extract {fs : Files} (h : fs.Closed) (members : List (Path × Text)) :
    (fs.extract members).Closed := by
  unfold Files.extract
  induction members generalizing fs with
  | nil => exact h
  | cons m ms ih => exact ih ((h.mkdirs _).put _ _)

end Files

/-! ## Pathname expansion -/

section Expansion

variable (ls : Path → List String) (isThere : Path → Bool)

/-- The words for the paths that match the given components, below the directory `dir`;
`printed` is the text of the components already matched. A pattern does not match a leading dot
that it does not have. -/
def globFrom : List String → Text → Path → List Text
  | [], printed, dir => if isThere dir then [printed] else []
  | c :: cs, printed, dir =>
    let slash : Text := if cs.isEmpty then [] else ['/']
    if hasMagic c.toList then
      ((ls dir).filter fun n =>
        (n.toList.head? != some '.' || c.toList.head? == some '.') &&
          matchTokens (parsePattern c.toList) n.toList).flatMap fun n =>
        globFrom cs (printed ++ n.toList ++ slash) (dir ++ [n])
    else globFrom cs (printed ++ c.toList ++ slash) (walk dir [c])

/-- Pathname expansion of one word. -/
def expandWord (cwd : Path) (w : Text) : List Text :=
  if hasMagic w then
    let found := globFrom ls isThere (components w) [] (if w.head? = some '/' then [] else cwd)
    if found.isEmpty then [w] else sortLines found
  else [w]

/-- The words of an unquoted expansion. -/
def expand (cwd : Path) (t : Text) : List Text := (fields t).flatMap (expandWord ls isThere cwd)

@[simp] theorem expand_nil (cwd : Path) : expand ls isThere cwd [] = [] := rfl

theorem expandWord_of_not_magic (cwd : Path) {w : Text} (h : hasMagic w = false) :
    expandWord ls isThere cwd w = [w] := by
  simp [expandWord, h]

/-- Lines without blanks that stay as they are are the words of their text. -/
theorem expand_unlines (cwd : Path) {ts : List Text} (hne : ∀ t ∈ ts, t ≠ [])
    (hb : ∀ t ∈ ts, ∀ c ∈ t, isBlank c = false)
    (h : ∀ t ∈ ts, expandWord ls isThere cwd t = [t]) : expand ls isThere cwd (unlines ts) = ts := by
  rw [expand, fields_unlines hne hb, List.flatMap_congr h, List.flatMap_singleton']

/-- Directories without pattern characters lead on to the last component. -/
theorem globFrom_dirs {ds : Path} (hds : ∀ d ∈ ds, PlainName d ∧ hasMagic d.toList = false)
    (n : String) (printed : Text) (dir : Path) :
    globFrom ls isThere (ds ++ [n]) printed dir =
      globFrom ls isThere [n] (printed ++ ds.flatMap fun d => d.toList ++ ['/']) (dir ++ ds) := by
  induction ds generalizing printed dir with
  | nil => simp
  | cons d ds ih =>
    obtain ⟨hplain, hmagic⟩ := hds d List.mem_cons_self
    have hwalk : walk dir [d] = dir ++ [d] := walk_plain dir [d] (by simpa using hplain)
    rw [List.cons_append, globFrom, if_neg (by simp [hmagic]), hwalk,
      ih fun e he => hds e (List.mem_cons_of_mem _ he)]
    simp

/-- The word for an entry of a directory. -/
theorem pathText_concat (ds : Path) (n : String) :
    pathText (ds ++ [n]) = '/' :: (ds.flatMap fun d => d.toList ++ ['/']) ++ n.toList := by
  induction ds with
  | nil => simp [pathText]
  | cons d ds ih =>
    have hcons : pathText (d :: (ds ++ [n])) = '/' :: d.toList ++ pathText (ds ++ [n]) := rfl
    rw [List.cons_append, hcons, ih]
    simp

/-- A word stays as it is when no other name in its directory matches its last component. -/
theorem expandWord_only (cwd : Path) {ds : Path} {n : String}
    (hds : ∀ d ∈ ds, PlainName d ∧ hasMagic d.toList = false) (hn : PlainName n)
    (hnodup : (ls ds).Nodup)
    (honly : ∀ m ∈ ls ds, hasMagic n.toList = true →
      matchTokens (parsePattern n.toList) m.toList = true → m = n) :
    expandWord ls isThere cwd (pathText (ds ++ [n])) = [pathText (ds ++ [n])] := by
  have hhead : (pathText (ds ++ [n])).head? = some '/' := by rw [pathText_concat]; rfl
  have hcomp : components (pathText (ds ++ [n])) = "" :: (ds ++ [n]) :=
    components_pathText _ fun d hd => (List.mem_append.mp hd).elim (fun h => (hds d h).1)
      fun h => List.mem_singleton.mp h ▸ hn
  have hfrom : globFrom ls isThere ("" :: (ds ++ [n])) [] [] =
      globFrom ls isThere [n] ('/' :: ds.flatMap fun d => d.toList ++ ['/']) ds := by
    have hroot : walk [] [""] = [] := rfl
    rw [globFrom, if_neg (by decide), hroot, globFrom_dirs ls isThere hds]
    simp
  have hwalk : walk ds [n] = ds ++ [n] := walk_plain ds [n] (by simpa using hn)
  have hfound : globFrom ls isThere ("" :: (ds ++ [n])) [] [] = [] ∨
      globFrom ls isThere ("" :: (ds ++ [n])) [] [] = [pathText (ds ++ [n])] := by
    rw [hfrom, globFrom]
    by_cases hmagic : hasMagic n.toList = true
    · rw [if_pos hmagic]
      -- the matching names are at most the one name
      have hnodup' := hnodup.filter fun m =>
        (m.toList.head? != some '.' || n.toList.head? == some '.') &&
          matchTokens (parsePattern n.toList) m.toList
      have hnames := or_iff_not_imp_right.mpr fun hne =>
        ((hnodup'.ne_singleton_iff n).mp hne).resolve_right fun ⟨m, hm, hmn⟩ => by
          obtain ⟨hm, hmatch⟩ := List.mem_filter.mp hm
          exact hmn (honly m hm hmagic ((Bool.and_eq_true _ _).mp hmatch).2)
      rcases hnames with hnil | hone
      · exact Or.inl (by simp [hnil])
      · rw [hone]
        cases h : isThere (ds ++ [n]) <;> simp [globFrom, h, pathText_concat]
    · rw [if_neg hmagic]
      cases h : isThere (ds ++ [n]) <;> simp [globFrom, h, pathText_concat, hwalk]
  unfold expandWord
  rw [hcomp, hhead, if_pos rfl]
  rcases hfound with h | h <;> simp [h]

end Expansion

end Shell
