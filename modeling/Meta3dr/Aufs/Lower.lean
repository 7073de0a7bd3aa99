import Meta3dr.Aufs.Lookup

/-!
# Operations on the tree of a branch

The union is changed through the filesystems of its branches: an entry is made, removed or renamed
there, or a file is written. Each operation has the conditions of the system call.

## Main definitions

* `Files.move`: an entry moved with all below it
* `LowerOp`, `LowerOp.exec`: the operations, and what they do to a tree
* `LowerOp.effect`: what they do to the entries, path by path

## Main results

* `Files.get_move`: the entries after a move
* `LowerOp.exec_of_ready`, `LowerOp.Ready.closed`: where its conditions hold, an operation has its
  effect and keeps the tree closed
-/

namespace Shell.Files

/-- An entry moved with all below it; what was at the new path is gone. -/
def move (fs : Files) (p q : Path) : Files :=
  (fs.entries.filterMap fun x =>
    if p <+: x.1 then some ⟨q ++ x.1.drop p.length, x.2⟩
    else if q <+: x.1 then none else some x).toAList

section Move

variable {p q : Path}

theorem append_drop_eq_iff {r a : Path} (hpa : p <+: a) :
    r = q ++ a.drop p.length ↔ q <+: r ∧ p ++ r.drop q.length = a := by
  obtain ⟨t, rfl⟩ := hpa
  constructor
  · rintro rfl
    simp
  · rintro ⟨⟨t', rfl⟩, h⟩
    have htail : t' = t := by simpa using h
    simp [htail]

theorem dlookup_move (l : List (Sigma fun _ : Path => Node)) (r : Path) :
    (l.filterMap fun x =>
      if p <+: x.1 then some (⟨q ++ x.1.drop p.length, x.2⟩ : Sigma fun _ => Node)
      else if q <+: x.1 then none else some x).dlookup r =
    if q <+: r then l.dlookup (p ++ r.drop q.length)
    else if p <+: r then none else l.dlookup r := by
  induction l with
  | nil => simp
  | cons x l ih =>
    obtain ⟨a, x⟩ := x
    by_cases hpa : p <+: a
    · have hiff := append_drop_eq_iff (q := q) (r := r) hpa
      rw [List.filterMap_cons_some (by rw [if_pos hpa])]
      by_cases hr : r = q ++ a.drop p.length
      · obtain ⟨hqr, heq⟩ := hiff.mp hr
        rw [if_pos hqr, heq, hr, List.dlookup_cons_eq, List.dlookup_cons_eq]
      · rw [List.dlookup_cons_ne _ _ hr, ih]
        by_cases hqr : q <+: r
        · have hne : p ++ r.drop q.length ≠ a := fun h => hr (hiff.mpr ⟨hqr, h⟩)
          rw [if_pos hqr, if_pos hqr, List.dlookup_cons_ne _ _ hne]
        · by_cases hpr : p <+: r
          · rw [if_neg hqr, if_neg hqr, if_pos hpr, if_pos hpr]
          · have hne : r ≠ a := fun h => hpr (h ▸ hpa)
            rw [if_neg hqr, if_neg hqr, if_neg hpr, if_neg hpr, List.dlookup_cons_ne _ _ hne]
    · have hne : p ++ r.drop q.length ≠ a := fun h => hpa (h ▸ List.prefix_append _ _)
      by_cases hqa : q <+: a
      · rw [List.filterMap_cons_none (by rw [if_neg hpa, if_pos hqa]), ih]
        by_cases hqr : q <+: r
        · rw [if_pos hqr, if_pos hqr, List.dlookup_cons_ne _ _ hne]
        · have hra : r ≠ a := fun h => hqr (h ▸ hqa)
          rw [if_neg hqr, if_neg hqr, List.dlookup_cons_ne _ _ hra]
      · rw [List.filterMap_cons_some (by rw [if_neg hpa, if_neg hqa])]
        by_cases hra : r = a
        · subst hra
          rw [if_neg hqa, if_neg hpa, List.dlookup_cons_eq, List.dlookup_cons_eq]
        · rw [List.dlookup_cons_ne _ _ hra, ih, List.dlookup_cons_ne _ _ hne,
            List.dlookup_cons_ne _ _ hra]

/-- The entries after a move. -/
theorem get_move (fs : Files) (hpq : ¬ p <+: q) (hqp : ¬ q <+: p) (r : Path) :
    (fs.move p q).get r =
      if q <+: r then fs.get (p ++ r.drop q.length) else if p <+: r then none else fs.get r := by
  have hp : p ≠ [] := fun h => hpq (h ▸ List.nil_prefix)
  have hq : q ≠ [] := fun h => hqp (h ▸ List.nil_prefix)
  by_cases hr : r = []
  · subst hr
    simp [hp, hq]
  · have hne : p ++ r.drop q.length ≠ [] := by simp [hp]
    rw [get_of_ne_nil _ hr, get_of_ne_nil _ hr, get_of_ne_nil _ hne, move, AList.lookup_to_alist,
      dlookup_move]
    rfl

end Move

end Shell.Files

namespace Meta3dr.Aufs

open Shell

/-- The entries of a tree, path by path. -/
abbrev Tree := Path → Option Node

/-- Every entry lies in a directory, and the root is one. -/
structure Tree.Closed (T : Tree) : Prop where
  root : T [] = some .dir
  parent : ∀ s n, T (s ++ [n]) ≠ none → T s = some .dir

/-- An operation on the tree of a branch: `vfsub_create`, `vfsub_mkdir`, `vfsub_symlink`,
`vfsub_mknod` and `vfsub_link` make an entry. -/
inductive LowerOp
  | create (p : Path) (x : Node)
  | unlink (p : Path)
  | rmdir (p : Path)
  | rename (p q : Path)
  | write (p : Path) (t : Text)

namespace LowerOp

/-- What an operation does to a tree, with the conditions of the system call. -/
def exec (fs : Files) : LowerOp → Except Errno Files
  | .create p x =>
    if (fs.get p).isSome then .error .eexist
    else if fs.get p.dropLast = some .dir then .ok (fs.insert p x)
    else .error .enoent
  | .unlink p =>
    match fs.get p with
    | none => .error .enoent
    | some .dir => .error .eisdir
    | some _ => .ok (fs.erase p)
  | .rmdir p =>
    match fs.get p with
    | none => .error .enoent
    | some .dir => if p = [] then .error .einval
      else if fs.names p = [] then .ok (fs.erase p) else .error .enotempty
    | some _ => .error .enotdir
  | .rename p q =>
    match fs.get p with
    | none => .error .enoent
    | some x =>
      if p <+: q ∨ q <+: p then .error .einval
      else if fs.get q.dropLast = some .dir then
        match fs.get q with
        | none => .ok (fs.move p q)
        | some .dir => if x ≠ .dir then .error .eisdir
          else if fs.names q = [] then .ok (fs.move p q) else .error .enotempty
        | some _ => if x = .dir then .error .enotdir else .ok (fs.move p q)
      else .error .enoent
  | .write p t =>
    match fs.get p with
    | none => .error .enoent
    | some (.file _) => .ok (fs.insert p (.file t))
    | some .dir => .error .eisdir
    | some _ => .error .einval

/-- What an operation does to the entries. -/
def effect (T : Tree) : LowerOp → Tree
  | .create p x => Function.update T p (some x)
  | .unlink p => Function.update T p none
  | .rmdir p => Function.update T p none
  | .rename p q => fun r =>
    if q <+: r then T (p ++ r.drop q.length) else if p <+: r then none else T r
  | .write p t => Function.update T p (some (.file t))

end LowerOp

namespace Tree

variable {T : Tree}

theorem Closed.dir_above (h : T.Closed) {p r : Path} (hr : T (p ++ r) ≠ none) (hne : r ≠ []) :
    T p = some .dir := by
  induction r using List.reverseRecOn with
  | nil => exact absurd rfl hne
  | append_singleton r n ih =>
    rw [← List.append_assoc] at hr
    have hdir := h.parent (p ++ r) n hr
    by_cases hr' : r = []
    · simpa [hr'] using hdir
    · exact ih (by rw [hdir]; exact Option.some_ne_none _) hr'

/-- Nothing lies below an entry that is no directory. -/
theorem Closed.eq_none (h : T.Closed) {p r : Path} (hp : T p ≠ some .dir) (hne : r ≠ []) :
    T (p ++ r) = none := by
  by_contra hr
  exact hp (h.dir_above hr hne)

theorem Closed.eq_none_of_empty (h : T.Closed) {p r : Path} (hp : ∀ m, T (p ++ [m]) = none)
    (hne : r ≠ []) : T (p ++ r) = none := by
  cases r with
  | nil => exact absurd rfl hne
  | cons m r =>
    rw [List.append_cons]
    by_cases hr : r = []
    · rw [hr, List.append_nil, hp m]
    · exact h.eq_none (by simp [hp m]) hr

theorem Closed.ne_nil (h : T.Closed) {p : Path} (hp : T p ≠ some .dir) : p ≠ [] := by
  rintro rfl
  exact hp h.root

/-- An entry in an existing directory. -/
theorem Closed.update (h : T.Closed) {s : Path} {n : String} {x : Node} (hs : T s = some .dir)
    (hx : x = .dir ∨ ∀ m, T (s ++ [n] ++ [m]) = none) :
    Tree.Closed (Function.update T (s ++ [n]) (some x)) := by
  refine ⟨?_, fun s' m hm => ?_⟩
  · rw [Function.update_of_ne (by simp)]
    exact h.root
  · by_cases heq : s' ++ [m] = s ++ [n]
    · obtain ⟨rfl, -⟩ := List.append_inj' heq rfl
      rw [Function.update_of_ne (by simp)]
      exact hs
    · rw [Function.update_of_ne heq] at hm
      by_cases hs' : s' = s ++ [n]
      · subst hs'
        rcases hx with rfl | hnone
        · rw [Function.update_self]
        · exact absurd (hnone m) hm
      · rw [Function.update_of_ne hs']
        exact h.parent s' m hm

/-- An entry removed with nothing below it. -/
theorem Closed.erase (h : T.Closed) {p : Path} (hp : p ≠ []) (hnone : ∀ m, T (p ++ [m]) = none) :
    Tree.Closed (Function.update T p none) := by
  refine ⟨?_, fun s m hm => ?_⟩
  · rw [Function.update_of_ne hp.symm]
    exact h.root
  · by_cases heq : s ++ [m] = p
    · rw [heq, Function.update_self] at hm
      exact absurd rfl hm
    · rw [Function.update_of_ne heq] at hm
      have hs : s ≠ p := by
        rintro rfl
        exact hm (hnone m)
      rw [Function.update_of_ne hs]
      exact h.parent s m hm

/-- An entry renamed into an existing directory. -/
theorem Closed.rename (h : T.Closed) {p q : Path} (hpq : ¬ p <+: q) (hqp : ¬ q <+: p)
    (hq : T q.dropLast = some .dir) : Tree.Closed (LowerOp.effect T (.rename p q)) := by
  have hqne : q ≠ [] := fun h => hqp (h ▸ List.nil_prefix)
  have hpne : p ≠ [] := fun h => hpq (h ▸ List.nil_prefix)
  simp only [LowerOp.effect]
  refine ⟨?_, fun s m hm => ?_⟩
  · rw [if_neg (by simpa using hqne), if_neg (by simpa using hpne)]
    exact h.root
  · by_cases hqr : q <+: s ++ [m]
    · rw [if_pos hqr] at hm
      rcases List.prefix_concat_iff.mp hqr with heq | hqs
      · -- the renamed entry itself
        have hs : q.dropLast = s := by rw [heq, List.dropLast_concat]
        have hqs : ¬ q <+: s := fun hle => by
          have hlen := hle.length_le
          rw [heq] at hlen
          simp at hlen
        have hps : ¬ p <+: s := fun hle => hpq (heq ▸ hle.trans (List.prefix_append _ _))
        rw [if_neg hqs, if_neg hps, ← hs]
        exact hq
      · obtain ⟨t, rfl⟩ := hqs
        rw [if_pos (List.prefix_append _ _)]
        simp only [List.append_assoc, List.drop_left] at hm ⊢
        exact h.parent (p ++ t) m (by simpa using hm)
    · have hqs : ¬ q <+: s := fun hle => hqr (hle.trans (List.prefix_append _ _))
      rw [if_neg hqr] at hm
      by_cases hpr : p <+: s ++ [m]
      · rw [if_pos hpr] at hm
        exact absurd rfl hm
      · have hps : ¬ p <+: s := fun hle => hpr (hle.trans (List.prefix_append _ _))
        rw [if_neg hpr] at hm
        rw [if_neg hqs, if_neg hps]
        exact h.parent s m hm

end Tree

namespace LowerOp

variable {fs fs' : Files}

theorem get_insert (fs : Files) {p : Path} (x : Node) (hp : p ≠ []) :
    Files.get (fs.insert p x) = Function.update fs.get p (some x) := by
  funext q
  by_cases hq : q = p
  · rw [hq, Function.update_self, Files.get_insert_self _ _ hp]
  · rw [Function.update_of_ne hq, Files.get_insert_ne _ _ hq]

theorem get_erase (fs : Files) {p : Path} (hp : p ≠ []) :
    Files.get (fs.erase p) = Function.update fs.get p none := by
  funext q
  by_cases hq : q = p
  · rw [hq, Function.update_self, Files.get_erase_self _ hp]
  · rw [Function.update_of_ne hq, Files.get_erase_ne _ hq]

/-- What holds where an operation succeeds. -/
def Ready (T : Tree) : LowerOp → Prop
  | .create p _ => T p = none ∧ T p.dropLast = some .dir
  | .unlink p => T p ≠ none ∧ T p ≠ some .dir
  | .rmdir p => T p = some .dir ∧ p ≠ [] ∧ ∀ n, T (p ++ [n]) = none
  | .rename p q => T p ≠ none ∧ ¬ p <+: q ∧ ¬ q <+: p ∧ T q.dropLast = some .dir ∧
      (T q = none ∨ T p ≠ some .dir ∧ T q ≠ some .dir)
  | .write p _ => ∃ t, T p = some (.file t)

theorem ne_nil {p : Path} (h : fs.get p ≠ some .dir) : p ≠ [] := by
  rintro rfl
  exact h (Files.get_nil fs)

/-- **Where an operation is ready it has its effect.** -/
theorem exec_of_ready {op : LowerOp} (h : op.Ready fs.get) :
    ∃ fs', op.exec fs = .ok fs' ∧ fs'.get = op.effect fs.get := by
  cases op with
  | create p x =>
    obtain ⟨hnone, hdir⟩ := h
    have hp : fs.get p ≠ some .dir := by simp [hnone]
    exact ⟨fs.insert p x, by simp [exec, hnone, hdir], get_insert fs x (ne_nil hp)⟩
  | unlink p =>
    obtain ⟨hsome, hdir⟩ := h
    refine ⟨fs.erase p, ?_, get_erase fs (ne_nil hdir)⟩
    cases hx : fs.get p with
    | none => exact absurd hx hsome
    | some x => cases x <;> simp_all [exec]
  | rmdir p =>
    obtain ⟨hdir, hne, hnone⟩ := h
    refine ⟨fs.erase p, ?_, get_erase fs hne⟩
    have hnames : fs.names p = [] := by
      rw [List.eq_nil_iff_forall_not_mem]
      exact fun n hn => Files.mem_names.mp hn (hnone n)
    simp [exec, hdir, hne, hnames]
  | rename p q =>
    obtain ⟨hsome, hpq, hqp, hdir, hq⟩ := h
    refine ⟨fs.move p q, ?_, funext fun r => Files.get_move fs hpq hqp r⟩
    obtain ⟨x, hx⟩ := Option.ne_none_iff_exists'.mp hsome
    rcases hq with hq | ⟨hp, hq⟩
    · simp [exec, hx, hpq, hqp, hdir, hq]
    · have hxdir : x ≠ .dir := fun h => hp (h ▸ hx)
      cases hy : fs.get q with
      | none => simp [exec, hx, hpq, hqp, hdir, hy]
      | some y => cases y <;> simp_all [exec]
  | write p t =>
    obtain ⟨t₀, ht₀⟩ := h
    have hp : fs.get p ≠ some .dir := by simp [ht₀]
    exact ⟨fs.insert p (.file t), by simp [exec, ht₀], get_insert fs _ (ne_nil hp)⟩

/-- An operation that is ready keeps a tree closed. -/
theorem Ready.closed {T : Tree} {op : LowerOp} (h : op.Ready T) (hT : T.Closed) :
    (op.effect T).Closed := by
  cases op with
  | create p x =>
    obtain ⟨hnone, hdir⟩ := h
    have hp := hT.ne_nil (p := p) (by simp [hnone])
    obtain ⟨s, n, rfl⟩ := (List.eq_nil_or_concat' p).resolve_left hp
    rw [List.dropLast_concat] at hdir
    exact hT.update hdir (.inr fun m => hT.eq_none (by simp [hnone]) (by simp))
  | unlink p => exact hT.erase (hT.ne_nil h.2) fun m => hT.eq_none h.2 (by simp)
  | rmdir p => exact hT.erase h.2.1 h.2.2
  | rename p q => exact hT.rename h.2.1 h.2.2.1 h.2.2.2.1
  | write p t =>
    obtain ⟨t₀, ht₀⟩ := h
    have hp := hT.ne_nil (p := p) (by simp [ht₀])
    obtain ⟨s, n, rfl⟩ := (List.eq_nil_or_concat' p).resolve_left hp
    exact hT.update (hT.parent s n (by simp [ht₀]))
      (.inr fun m => hT.eq_none (by simp [ht₀]) (by simp))

/-- An operation that succeeds has its effect, and keeps a tree closed. -/
theorem exec_ok {op : LowerOp} (hT : Tree.Closed fs.get) (h : op.exec fs = .ok fs') :
    fs'.get = op.effect fs.get ∧ Tree.Closed fs'.get := by
  have of_ready : op.Ready fs.get → fs'.get = op.effect fs.get ∧ Tree.Closed fs'.get := by
    intro hready
    obtain ⟨fs₁, hexec, hget⟩ := exec_of_ready hready
    obtain rfl := Except.ok.inj (hexec.symm.trans h)
    exact ⟨hget, hget ▸ hready.closed hT⟩
  cases op with
  | create p x =>
    simp only [exec] at h
    split_ifs at h with hsome hdir
    exact of_ready ⟨by simpa using hsome, hdir⟩
  | unlink p =>
    simp only [exec] at h
    split at h
    · cases h
    · cases h
    · rename_i x hx hget
      exact of_ready ⟨by simp [hget], by simpa [hget] using hx⟩
  | rmdir p =>
    simp only [exec] at h
    split at h
    · cases h
    · rename_i hdir
      split_ifs at h with hp hnames
      refine of_ready ⟨hdir, hp, fun n => ?_⟩
      by_contra hn
      have hmem := Files.mem_names.mpr hn
      rw [hnames] at hmem
      cases hmem
    · cases h
  | rename p q =>
    simp only [exec] at h
    split at h
    · cases h
    · by_cases hpq : p <+: q ∨ q <+: p
      · rw [if_pos hpq] at h
        cases h
      · rw [if_neg hpq] at h
        by_cases hdir : fs.get q.dropLast = some .dir
        · rw [if_pos hdir] at h
          have hmove : fs' = fs.move p q := by
            repeat' split at h
            all_goals first
              | exact (Except.ok.inj h).symm
              | cases h
          obtain ⟨hpq, hqp⟩ := not_or.mp hpq
          have hget : Files.get fs' = effect fs.get (.rename p q) := by
            rw [hmove]
            exact funext fun r => Files.get_move fs hpq hqp r
          exact ⟨hget, hget ▸ hT.rename hpq hqp hdir⟩
        · rw [if_neg hdir] at h
          cases h
  | write p t =>
    simp only [exec] at h
    split at h
    · cases h
    · rename_i t₀ hx
      exact of_ready ⟨t₀, hx⟩
    · cases h
    · cases h

end LowerOp

end Meta3dr.Aufs
