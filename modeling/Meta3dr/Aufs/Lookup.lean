import Meta3dr.Shell.Files

/-!
# Branches and lookups of the union

The root filesystem that a boot hands over to is an aufs mount: a stack of branches whose trees
appear merged. A whiteout, a file with the prefix `.wh.` in a branch, hides an entry of the branches
below it, and a directory with an opaque marker hides the directories below it. A lookup walks down
the branches that have the parent directory.

## Main definitions

* `Branch`, `Dentry`: the branches of a mount, and what a lookup leaves in a dentry
* `auDoLookup`, `auLkupLoop`, `auLkupDentry`: a name looked up in one branch, and in all of them
* `resolve`: the walk from the root to a path
* `Branch.Sound`: whiteouts and opaque markers are files, and no entry stands beside its whiteout

## Main results

* `resolve_wf`: a lookup visits the branches from the top
* `exists_auLkupDentry`: over sound branches a lookup succeeds, and finds an entry if and only if no
  whiteout stands above it
-/

namespace Meta3dr.Aufs

open Shell

/-- The error numbers of the operations. -/
inductive Errno
  | eperm | enoent | eio | enomem | eexist | enotdir | eisdir | einval | enospc | erofs
  | enametoolong | enotempty
  deriving DecidableEq

/-! ## Names -/

/-- `AUFS_WH_PFX`. -/
abbrev whPfx : String := ".wh."

/-- `au_wh_name_alloc`: the name of the whiteout for a name. -/
def whName (n : String) : String := whPfx ++ n

/-- `AUFS_WH_DIROPQ`: the name of the opaque marker. -/
def diropqName : String := whName (whName ".opq")

/-- The name begins with the prefix of whiteouts. -/
def hasWhPfx (n : String) : Bool := whPfx.toList.isPrefixOf n.toList

/-- `AUFS_MAX_NAMELEN`: room for two prefixes, a dot and four digits within `NAME_MAX`. -/
def maxNameLen : ℕ := 255 - whPfx.utf8ByteSize * 2 - 1 - 4

theorem toList_whPfx : whPfx.toList = ['.', 'w', 'h', '.'] := by decide

theorem toList_whName (n : String) : (whName n).toList = '.' :: 'w' :: 'h' :: '.' :: n.toList := by
  rw [whName, String.toList_append, toList_whPfx]
  rfl

@[simp] theorem whName_inj {a b : String} : whName a = whName b ↔ a = b := by
  rw [← String.toList_inj, toList_whName, toList_whName]
  simp only [List.cons.injEq, true_and, String.toList_inj]

@[simp] theorem hasWhPfx_whName (n : String) : hasWhPfx (whName n) = true := by
  rw [hasWhPfx, toList_whName, toList_whPfx, List.isPrefixOf_iff_prefix]
  exact ⟨n.toList, rfl⟩

theorem exists_whName {n : String} (h : hasWhPfx n = true) : ∃ m, n = whName m := by
  obtain ⟨t, ht⟩ := List.isPrefixOf_iff_prefix.mp h
  refine ⟨.ofList t, String.toList_inj.mp ?_⟩
  rw [toList_whName, String.toList_ofList, ← ht, toList_whPfx]
  rfl

theorem ne_whName {a : String} (h : hasWhPfx a = false) (b : String) : a ≠ whName b := by
  rintro rfl
  simp at h

/-! ## Branches -/

/-- The permission of a branch: writable, read-only, or natively read-only. -/
inductive BrPerm
  | rw | ro | rr
  deriving DecidableEq

/-- A branch: its permission, the attribute `wh`, and its tree. -/
structure Branch where
  perm : BrPerm
  wh : Bool := false
  files : Files

/-- `au_br_writable`. -/
def auBrWritable (br : Branch) : Bool := br.perm = .rw

/-- `au_br_whable`: the whiteouts of the branch count. -/
def auBrWhable (br : Branch) : Bool := br.perm = .rw || br.wh

/-- `au_wh_test`: the whiteout is there; it has to be a regular file. -/
def auWhTest (fs : Files) (dir : Path) (whname : String) : Except Errno Bool :=
  match fs.get (dir ++ [whname]) with
  | none => .ok false
  | some (.file _) => .ok true
  | some _ => .error .eio

/-- `au_diropq_test`: the directory is opaque. -/
def auDiropqTest (fs : Files) (dir : Path) : Except Errno Bool := auWhTest fs dir diropqName

/-- The type of an entry, `S_IFMT` of its mode. -/
inductive Kind
  | reg | dir | lnk | other
  deriving DecidableEq

def kind : Node → Kind
  | .file _ => .reg
  | .dir => .dir
  | .link _ => .lnk
  | .special => .other

/-! ## Dentries -/

/-- What a dentry knows of the branches: the lower entries of its path with their branches from the
top, the branch in which it is negative, the branch with its whiteout, and the branch with its
opaque directory. -/
structure Dentry where
  lower : List (ℕ × Node) := []
  neg : Option ℕ := none
  bwh : Option ℕ := none
  bdiropq : Option ℕ := none

namespace Dentry

variable (d : Dentry)

/-- The entry that shows: that of the topmost branch. -/
def node : Option Node := d.lower.head?.map Prod.snd

/-- `au_dbstart`. -/
def dbstart : Option ℕ := (d.lower.head?.map Prod.fst).or d.neg

/-- `au_dbend`. -/
def dbend : ℕ := (d.lower.getLast?.map Prod.fst).getD 0

/-- `au_dbtail`: the last branch above the whiteout. -/
def dbtail : ℕ :=
  match d.bwh with
  | none => d.dbend
  | some 0 => 0
  | some b => if b < d.dbend then b - 1 else d.dbend

/-- `au_dbtaildir`: the last branch down to the opaque directory. -/
def dbtaildir : ℕ :=
  match d.bdiropq with
  | none => d.dbtail
  | some b => if b < d.dbtail then b else d.dbtail

/-- The branches that have the directory, down to the tail. -/
def dirs (brs : List Branch) : List (ℕ × Branch) :=
  d.lower.filterMap fun x =>
    if x.1 ≤ d.dbtaildir ∧ x.2 = .dir then brs[x.1]?.map fun br => (x.1, br) else none

end Dentry

/-! ## Lookups -/

section Lookup

variable (dir : Path) (name : String)

/-- `au_do_lookup`: the name in one branch. A negative entry is kept where it is allowed, which is
in the first branch. -/
def auDoLookup (allowNeg : Bool) (type : Option Kind) (i : ℕ) (br : Branch) (d : Dentry) :
    Except Errno (Option Node × Dentry) := do
  let whFound ← if auBrWhable br then auWhTest br.files dir (whName name) else pure false
  let d := if whFound then { d with bwh := some i } else d
  if whFound && !allowNeg then
    return (none, d)
  match br.files.get (dir ++ [name]) with
  | none => return (none, if allowNeg then { d with neg := some i } else d)
  | some n =>
    if whFound || type.any (· != kind n) then
      return (none, d)
    let opq ← if kind n = .dir && auBrWhable br then auDiropqTest br.files (dir ++ [name])
      else pure false
    return (some n, { d with
      lower := d.lower ++ [(i, n)]
      bdiropq := if opq then some i else d.bdiropq })

/-- The loop of `au_lkup_dentry`: it ends at a whiteout and at an entry that is no directory, and
below a directory looks for directories only. -/
def auLkupLoop : Bool → Option Kind → List (ℕ × Branch) → Dentry → Except Errno Dentry
  | _, _, [], d => .ok d
  | allowNeg, type, (i, br) :: brs, d => do
    let (n, d) ← auDoLookup dir name allowNeg type i br d
    if d.bwh.isSome then
      return d
    match n with
    | none => auLkupLoop false type brs d
    | some n =>
      if kind n ≠ .dir then
        return d
      auLkupLoop false (type.or (some (kind n))) brs d

/-- `au_lkup_dentry` in the branches of the parent. A name with the prefix of whiteouts is refused,
and an entry beside its whiteout in the first branch is an error. -/
def auLkupDentry (brs : List (ℕ × Branch)) : Except Errno Dentry := do
  if hasWhPfx name then
    throw .eperm
  let d ← auLkupLoop dir name true none brs {}
  if d.dbstart.isNone then
    throw .eio
  return d

end Lookup

/-- `aufs_lookup`: a name in a directory. -/
def aufsLookup (brs : List Branch) (dir : Path) (parent : Dentry) (name : String) :
    Except Errno Dentry := do
  if maxNameLen < name.utf8ByteSize then
    throw .enametoolong
  auLkupDentry dir name (parent.dirs brs)

/-- The dentry of the root: every branch has it. -/
def rootDentry (brs : List Branch) : Dentry where
  lower := (List.range brs.length).map fun i => (i, .dir)

/-- The walk from a directory to a path below it. -/
def resolveFrom (brs : List Branch) : Path → Dentry → Path → Except Errno Dentry
  | _, d, [] => .ok d
  | dir, d, name :: p =>
    match d.node with
    | none => .error .enoent
    | some .dir => do
      let d ← aufsLookup brs dir d name
      resolveFrom brs (dir ++ [name]) d p
    | some _ => .error .enotdir

/-- The dentry of a path. -/
def resolve (brs : List Branch) (p : Path) : Except Errno Dentry :=
  resolveFrom brs [] (rootDentry brs) p

/-- The last step of a walk. -/
theorem resolveFrom_concat (brs : List Branch) (dir p : Path) (d : Dentry) (name : String) :
    resolveFrom brs dir d (p ++ [name]) = (resolveFrom brs dir d p).bind fun d' =>
      match d'.node with
      | none => .error .enoent
      | some .dir => aufsLookup brs (dir ++ p) d' name
      | some _ => .error .enotdir := by
  induction p generalizing dir d with
  | nil =>
    simp only [List.nil_append, resolveFrom, Except.bind, List.append_nil]
    split
    · rfl
    · cases aufsLookup brs dir d name <;> rfl
    · rfl
  | cons a p ih =>
    simp only [List.cons_append, resolveFrom]
    split
    · rfl
    · simp only [bind]
      cases aufsLookup brs dir d a with
      | error e => rfl
      | ok d₁ =>
        simp only [Except.bind]
        rw [ih, List.append_assoc]
        rfl
    · rfl

/-! ## The branches of a dentry -/

/-- What a lookup leaves behind: the branches are in order, the whiteout is below the entries, and
the opaque directory is one of them. -/
structure Dentry.Wf (d : Dentry) : Prop where
  sorted : (d.lower.map Prod.fst).Pairwise (· < ·)
  bwh : ∀ b, d.bwh = some b → ∀ i ∈ d.lower.map Prod.fst, i < b
  bdiropq : ∀ q, d.bdiropq = some q → q ∈ d.lower.map Prod.fst

section Wf

variable {dir : Path} {name : String} {brs : List (ℕ × Branch)} {d d' : Dentry}

/-- What one branch adds to a dentry. -/
theorem auDoLookup_cases {b : Bool} {type : Option Kind} {i : ℕ} {br : Branch} {n : Option Node}
    (h : auDoLookup dir name b type i br d = .ok (n, d')) :
    d'.lower = d.lower ++ (n.map fun n => (i, n)).toList ∧
      (d'.bwh = d.bwh ∨ d'.bwh = some i ∧ n = none) ∧
      (d'.bdiropq = d.bdiropq ∨ d'.bdiropq = some i ∧ n.isSome) := by
  unfold auDoLookup at h
  simp only [bind, Except.bind, pure, Except.pure] at h
  repeat' split at h
  all_goals cases h <;> simp_all

/-- The entries of a dentry lie above the branches that are left. -/
theorem auLkupLoop_wf {b : Bool} {type : Option Kind} (hbrs : (brs.map Prod.fst).Pairwise (· < ·))
    (hd : d.Wf) (hbwh : d.bwh = none)
    (habove : ∀ i ∈ d.lower.map Prod.fst, ∀ j ∈ brs.map Prod.fst, i < j)
    (h : auLkupLoop dir name b type brs d = .ok d') :
    d'.Wf ∧ ∀ i ∈ d'.lower.map Prod.fst, i ∈ d.lower.map Prod.fst ∨ i ∈ brs.map Prod.fst := by
  induction brs generalizing b type d with
  | nil =>
    cases h
    exact ⟨hd, fun i hi => .inl hi⟩
  | cons x brs ih =>
    obtain ⟨i, br⟩ := x
    simp only [List.map_cons, List.pairwise_cons, List.mem_cons] at hbrs habove ⊢
    simp only [auLkupLoop, bind, Except.bind] at h
    cases hdo : auDoLookup dir name b type i br d with
    | error e => simp [hdo] at h
    | ok r =>
      obtain ⟨n, d₁⟩ := r
      obtain ⟨hlow, hwh, hopq⟩ := auDoLookup_cases hdo
      rw [hdo] at h
      have hlow' : d₁.lower.map Prod.fst =
          d.lower.map Prod.fst ++ (n.map fun _ => i).toList := by
        rw [hlow]
        cases n <;> simp
      have hmem : ∀ j ∈ d₁.lower.map Prod.fst, j ∈ d.lower.map Prod.fst ∨ j = i := by
        intro j hj
        rw [hlow', List.mem_append] at hj
        rcases hj with hj | hj
        · exact .inl hj
        · cases n with
          | none => cases hj
          | some n => exact .inr (List.mem_singleton.mp hj)
      have hwf : d₁.Wf := by
        refine ⟨?_, fun b hb j hj => ?_, fun q hq => ?_⟩
        · rw [hlow', List.pairwise_append]
          refine ⟨hd.sorted, by cases n <;> simp, fun j hj k hk => ?_⟩
          cases n with
          | none => cases hk
          | some n => exact List.mem_singleton.mp hk ▸ habove j hj i (.inl rfl)
        · rcases hwh with hwh | ⟨hwh, rfl⟩
          · rw [hwh, hbwh] at hb
            cases hb
          · rw [hlow'] at hj
            obtain rfl := Option.some.inj (hwh.symm.trans hb)
            exact habove j (by simpa using hj) i (.inl rfl)
        · rw [hlow', List.mem_append]
          rcases hopq with hopq | ⟨hopq, hsome⟩
          · exact .inl (hd.bdiropq q (hopq ▸ hq))
          · obtain rfl := Option.some.inj (hopq.symm.trans hq)
            obtain ⟨n, rfl⟩ := Option.isSome_iff_exists.mp hsome
            exact .inr (List.mem_singleton_self i)
      have hstop : ∀ {d₂}, d₁ = d₂ → d₂.Wf ∧ ∀ j ∈ d₂.lower.map Prod.fst,
          j ∈ d.lower.map Prod.fst ∨ j = i ∨ j ∈ brs.map Prod.fst := by
        rintro _ rfl
        exact ⟨hwf, fun j hj => (hmem j hj).imp_right .inl⟩
      have hgo : ∀ {t}, d₁.bwh = none → auLkupLoop dir name false t brs d₁ = .ok d' →
          d'.Wf ∧ ∀ j ∈ d'.lower.map Prod.fst,
            j ∈ d.lower.map Prod.fst ∨ j = i ∨ j ∈ brs.map Prod.fst := by
        intro t hnone ht
        obtain ⟨hwf', hmem'⟩ := ih hbrs.2 hwf hnone (fun j hj k hk => by
          rcases hmem j hj with hj | rfl
          · exact habove j hj k (.inr hk)
          · exact hbrs.1 k hk) ht
        refine ⟨hwf', fun j hj => ?_⟩
        rcases hmem' j hj with hj | hj
        · exact (hmem j hj).imp_right .inl
        · exact .inr (.inr hj)
      simp only at h
      split at h
      · exact hstop (Except.ok.inj h)
      · rename_i hnone
        rw [Option.not_isSome_iff_eq_none] at hnone
        split at h
        · exact hgo hnone h
        · split at h
          · exact hstop (Except.ok.inj h)
          · exact hgo hnone h

theorem auLkupDentry_wf (hbrs : (brs.map Prod.fst).Pairwise (· < ·))
    (h : auLkupDentry dir name brs = .ok d) :
    d.Wf ∧ ∀ i ∈ d.lower.map Prod.fst, i ∈ brs.map Prod.fst := by
  simp only [auLkupDentry, bind, Except.bind, throw, throwThe, MonadExceptOf.throw, pure,
    Except.pure] at h
  split at h
  · cases h
  · cases hl : auLkupLoop dir name true none brs {} with
    | error e => simp [hl] at h
    | ok d₁ =>
      rw [hl] at h
      simp only at h
      split at h
      · cases h
      · obtain rfl := Except.ok.inj h
        have hempty : ({} : Dentry).Wf := ⟨List.Pairwise.nil, by simp, by simp⟩
        obtain ⟨hwf, hmem⟩ := auLkupLoop_wf hbrs hempty rfl (by simp) hl
        exact ⟨hwf, fun i hi => by simpa using hmem i hi⟩

theorem mem_dirs {brs : List Branch} {x : ℕ × Branch} (h : x ∈ d.dirs brs) :
    brs[x.1]? = some x.2 := by
  rw [Dentry.dirs, List.mem_filterMap] at h
  obtain ⟨y, -, hy⟩ := h
  split_ifs at hy
  obtain ⟨br, hbr, rfl⟩ := Option.map_eq_some_iff.mp hy
  exact hbr

theorem Dentry.Wf.dirs (hd : d.Wf) (brs : List Branch) :
    ((d.dirs brs).map Prod.fst).Pairwise (· < ·) := by
  refine hd.sorted.sublist ?_
  unfold Dentry.dirs
  induction d.lower with
  | nil => exact List.Sublist.refl _
  | cons x l ih =>
    rw [List.filterMap_cons]
    cases hx : if x.1 ≤ d.dbtaildir ∧ x.2 = Node.dir then brs[x.1]?.map fun br => (x.1, br)
      else none with
    | none => exact ih.cons _
    | some y =>
      have hy : y.1 = x.1 := by
        split_ifs at hx
        obtain ⟨br, -, rfl⟩ := Option.map_eq_some_iff.mp hx
        rfl
      rw [List.map_cons, List.map_cons, hy]
      exact ih.cons_cons _

/-- The entry of the topmost branch is not below the tail. -/
theorem Dentry.Wf.le_dbtaildir (hd : d.Wf) {x : ℕ × Node} {l : List (ℕ × Node)}
    (hl : d.lower = x :: l) : x.1 ≤ d.dbtaildir := by
  have hmin : ∀ i ∈ d.lower.map Prod.fst, x.1 ≤ i := by
    have hsorted := hd.sorted
    rw [hl, List.map_cons, List.pairwise_cons] at hsorted
    rw [hl, List.map_cons]
    intro i hi
    rcases List.mem_cons.mp hi with rfl | hi
    · exact le_rfl
    · exact (hsorted.1 i hi).le
  have hdbend : d.dbend ∈ d.lower.map Prod.fst := by
    have hne : d.lower ≠ [] := by simp [hl]
    rw [Dentry.dbend, List.getLast?_eq_some_getLast hne]
    exact List.mem_map_of_mem (List.getLast_mem hne)
  have hdbtail : d.dbtail = d.dbend := by
    cases hwh : d.bwh with
    | none => simp [Dentry.dbtail, hwh]
    | some b =>
      have hlt := hd.bwh b hwh _ hdbend
      cases b with
      | zero => omega
      | succ b => simp [Dentry.dbtail, hwh, Nat.not_lt.mpr hlt.le]
  rw [Dentry.dbtaildir, hdbtail]
  cases hopq : d.bdiropq with
  | none => exact hmin _ hdbend
  | some q =>
    simp only
    split_ifs
    · exact hmin q (hd.bdiropq q hopq)
    · exact hmin _ hdbend

theorem rootDentry_wf (brs : List Branch) : (rootDentry brs).Wf := by
  have hmap : (rootDentry brs).lower.map Prod.fst = List.range brs.length := by
    simp [rootDentry, Function.comp_def]
  refine ⟨?_, by simp [rootDentry], by simp [rootDentry]⟩
  rw [hmap]
  exact List.pairwise_lt_range

theorem resolveFrom_wf {brs : List Branch} {dir p : Path} (hd : d.Wf)
    (hlt : ∀ i ∈ d.lower.map Prod.fst, i < brs.length) (h : resolveFrom brs dir d p = .ok d') :
    d'.Wf ∧ ∀ i ∈ d'.lower.map Prod.fst, i < brs.length := by
  induction p generalizing dir d with
  | nil => exact Except.ok.inj h ▸ ⟨hd, hlt⟩
  | cons name p ih =>
    simp only [resolveFrom, aufsLookup, bind, Except.bind, throw, throwThe,
      MonadExceptOf.throw] at h
    split at h
    · cases h
    · split_ifs at h
      split at h
      · cases h
      · rename_i d₁ hd₁
        obtain ⟨hwf, hmem⟩ := auLkupDentry_wf (hd.dirs brs) hd₁
        refine ih hwf (fun i hi => ?_) h
        obtain ⟨x, hx, rfl⟩ := List.mem_map.mp (hmem i hi)
        exact (List.getElem?_eq_some_iff.mp (mem_dirs hx)).1
    · cases h

/-- **A lookup visits the branches from the top.** -/
theorem resolve_wf {brs : List Branch} {p : Path} (h : resolve brs p = .ok d) :
    d.Wf ∧ ∀ i ∈ d.lower.map Prod.fst, i < brs.length :=
  resolveFrom_wf (rootDentry_wf brs) (by simp [rootDentry]) h

/-- A directory of the union is a directory of a branch. -/
theorem dirs_ne_nil {brs : List Branch} {p : Path} (h : resolve brs p = .ok d)
    (hdir : d.node = some .dir) : d.dirs brs ≠ [] := by
  obtain ⟨hwf, hlt⟩ := resolve_wf h
  cases hl : d.lower with
  | nil => simp [Dentry.node, hl] at hdir
  | cons x l =>
    have hx : x.2 = .dir := by simpa [Dentry.node, hl] using hdir
    have hle := hwf.le_dbtaildir hl
    have hbr := hlt x.1 (by simp [hl])
    simp [Dentry.dirs, hl, hle, hx, hbr]

end Wf

/-! ## Sound branches -/

/-- For a name in a directory, whiteout and opaque marker are files, and no entry stands beside its
whiteout. -/
structure Branch.Sound (br : Branch) (dir : Path) (n : String) : Prop where
  whiteout : ∀ x, br.files.get (dir ++ [whName n]) = some x → kind x = .reg
  apart : ∀ x, br.files.get (dir ++ [whName n]) = some x → br.files.get (dir ++ [n]) = none
  marker : ∀ x, br.files.get (dir ++ [n] ++ [diropqName]) = some x → kind x = .reg

/-- The branches whose whiteouts count are sound in the directory. -/
def SoundAll (dir : Path) (brs : List (ℕ × Branch)) : Prop :=
  ∀ x ∈ brs, auBrWhable x.2 = true → ∀ n, hasWhPfx n = false → x.2.Sound dir n

/-- The branch hides a name of the directory in the branches below. -/
def hides (br : Branch) (dir : Path) (name : String) : Bool :=
  auBrWhable br && (br.files.get (dir ++ [whName name])).isSome

/-- The topmost entry of a name that no whiteout above hides. -/
def firstEntry (dir : Path) (name : String) : List (ℕ × Branch) → Option Node
  | [] => none
  | (_, br) :: brs =>
    if hides br dir name then none
    else (br.files.get (dir ++ [name])).or (firstEntry dir name brs)

section Sound

variable (dir : Path) {name : String} {brs : List (ℕ × Branch)}

theorem auWhTest_of_reg {fs : Files} {w : String}
    (h : ∀ x, fs.get (dir ++ [w]) = some x → kind x = .reg) :
    auWhTest fs dir w = .ok (fs.get (dir ++ [w])).isSome := by
  unfold auWhTest
  cases hx : fs.get (dir ++ [w]) with
  | none => rfl
  | some x =>
    have hk := h x hx
    cases x <;> simp_all [kind]

/-- A lookup in a sound branch. -/
theorem auDoLookup_sound {br : Branch}
    (hsound : auBrWhable br = true → br.Sound dir name) (b : Bool)
    (type : Option Kind) (i : ℕ) (d : Dentry) :
    auDoLookup dir name b type i br d = .ok
      (if hides br dir name then (none, { d with
          bwh := some i
          neg := if b then some i else d.neg })
        else match br.files.get (dir ++ [name]) with
          | none => (none, { d with neg := if b then some i else d.neg })
          | some n => if type.any (· != kind n) then (none, d)
            else (some n, { d with
              lower := d.lower ++ [(i, n)]
              bdiropq := if kind n = .dir ∧ auBrWhable br = true ∧
                  (br.files.get (dir ++ [name] ++ [diropqName])).isSome then some i
                else d.bdiropq })) := by
  cases hw : auBrWhable br with
  | false =>
    cases hx : br.files.get (dir ++ [name]) with
    | none => cases b <;> simp [auDoLookup, hides, hw, hx, bind, Except.bind, pure, Except.pure]
    | some n =>
      by_cases ht : type.any (· != kind n) = true <;>
        simp [auDoLookup, hides, hw, hx, ht, bind, Except.bind, pure, Except.pure]
  | true =>
    obtain ⟨hwhite, hapart, hmark⟩ := hsound hw
    have hwh := auWhTest_of_reg dir hwhite
    cases hx : br.files.get (dir ++ [whName name]) with
    | some x =>
      have hnone := hapart x hx
      cases b <;>
        simp [auDoLookup, hides, hw, hx, hwh, hnone, bind, Except.bind, pure, Except.pure]
    | none =>
      cases hy : br.files.get (dir ++ [name]) with
      | none =>
        cases b <;> simp [auDoLookup, hides, hw, hx, hwh, hy, bind, Except.bind, pure, Except.pure]
      | some n =>
        have hopq := auWhTest_of_reg (dir ++ [name]) hmark
        by_cases ht : type.any (· != kind n) = true
        · simp [auDoLookup, hides, hw, hx, hwh, hy, ht, bind, Except.bind, pure, Except.pure]
        · have ht' : type.any (· != kind n) = false := by simpa using ht
          by_cases hk : kind n = .dir
          · rw [hk] at ht'
            simp [auDoLookup, auDiropqTest, hides, hw, hx, hwh, hy, ht', hk, hopq, bind,
              Except.bind, pure, Except.pure]
          · simp [auDoLookup, hides, hw, hx, hwh, hy, ht', hk, bind, Except.bind, pure,
              Except.pure]

variable (hn : hasWhPfx name = false)
include hn

/-- The loop succeeds over sound branches; what it finds first is the first entry. -/
theorem exists_auLkupLoop (hsound : SoundAll dir brs) (b : Bool) (type : Option Kind) {d : Dentry}
    (hd : d.bwh = none) :
    ∃ d' ext, auLkupLoop dir name b type brs d = .ok d' ∧ d'.lower = d.lower ++ ext ∧
      (b = false → d'.neg = d.neg) ∧
      (type = none → ext.head?.map Prod.snd = firstEntry dir name brs) ∧
      (type = none → b = true → brs ≠ [] → ext = [] → d'.neg.isSome) := by
  induction brs generalizing b type d with
  | nil => exact ⟨d, [], rfl, by simp, fun _ => rfl, fun _ => rfl, fun _ _ h => absurd rfl h⟩
  | cons x brs ih =>
    obtain ⟨i, br⟩ := x
    have hq := auDoLookup_sound dir (fun hw => hsound _ List.mem_cons_self hw name hn) b type i d
    have ih' := fun b t (d₁ : Dentry) h =>
      ih (fun y hy => hsound y (List.mem_cons_of_mem _ hy)) b t (d := d₁) h
    simp only [auLkupLoop, hq, bind, Except.bind, firstEntry]
    by_cases hh : hides br dir name = true
    · -- a whiteout ends the loop
      refine ⟨_, [], by simp [hh]; rfl, by simp, ?_, fun _ => by simp [hh], ?_⟩
      · rintro rfl
        rfl
      · rintro - rfl - -
        rfl
    · simp only [hh, Bool.false_eq_true, if_false]
      cases hx : br.files.get (dir ++ [name]) with
      | none =>
        have hstop : d.bwh.isSome = false := by rw [hd, Option.isSome_none]
        simp only [hstop, Bool.false_eq_true, if_false, Option.none_or]
        obtain ⟨d', ext, he, hlow, hneg, hfirst, -⟩ :=
          ih' false type { d with neg := if b then some i else d.neg } hd
        refine ⟨d', ext, he, hlow, ?_, hfirst, ?_⟩
        · rintro rfl
          exact hneg rfl
        · rintro - rfl - -
          rw [hneg rfl]
          rfl
      | some n =>
        by_cases ht : type.any (· != kind n) = true
        · -- an entry of another type is passed over
          have hstop : d.bwh.isSome = false := by rw [hd, Option.isSome_none]
          simp only [ht, if_true, hstop, Bool.false_eq_true, if_false]
          obtain ⟨d', ext, he, hlow, hneg, -, -⟩ := ih' false type d hd
          have hne : type ≠ none := by
            rintro rfl
            simp at ht
          exact ⟨d', ext, he, hlow, fun _ => hneg rfl, fun h => absurd h hne, fun h => absurd h hne⟩
        · have hstop : d.bwh.isSome = false := by rw [hd, Option.isSome_none]
          simp only [ht, Bool.false_eq_true, if_false, hstop]
          generalize (if kind n = .dir ∧ auBrWhable br = true ∧
            (br.files.get (dir ++ [name] ++ [diropqName])).isSome = true then some i
              else d.bdiropq) = q
          by_cases hk : kind n = .dir
          · simp only [hk, ne_eq, not_true_eq_false, if_false]
            obtain ⟨d', ext, he, hlow, hneg, -, -⟩ :=
              ih' false (type.or (some .dir))
                { d with lower := d.lower ++ [(i, n)], bdiropq := q } hd
            refine ⟨d', (i, n) :: ext, he, by rw [hlow]; simp, fun _ => hneg rfl, fun _ => by simp,
              fun _ _ _ h => by cases h⟩
          · simp only [ne_eq, hk, not_false_eq_true, if_true]
            refine ⟨_, [(i, n)], rfl, rfl, fun _ => rfl, fun _ => by simp,
              fun _ _ _ h => by cases h⟩

/-- **Over sound branches a lookup succeeds**, and shows the first entry that no whiteout above it
hides. -/
theorem exists_auLkupDentry (hsound : SoundAll dir brs) (hne : brs ≠ []) :
    ∃ d, auLkupDentry dir name brs = .ok d ∧ d.node = firstEntry dir name brs := by
  obtain ⟨d, ext, he, hlow, -, hfirst, hneg⟩ :=
    exists_auLkupLoop dir hn hsound true none (d := ({} : Dentry)) rfl
  have hlow' : d.lower = ext := hlow
  refine ⟨d, ?_, by rw [Dentry.node, hlow', hfirst rfl]⟩
  have hstart : d.dbstart.isSome := by
    unfold Dentry.dbstart
    rw [hlow']
    cases ext with
    | nil => simpa using hneg rfl rfl hne rfl
    | cons x ext => simp
  have hstart' : d.dbstart.isNone = false := by
    rw [Option.isNone_eq_false_iff]
    exact hstart
  simp [auLkupDentry, hn, he, hstart', bind, Except.bind, pure, Except.pure]

end Sound

end Meta3dr.Aufs
