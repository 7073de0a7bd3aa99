import Meta3dr.Aufs.Lower

/-!
# The tree of a union

The root filesystem is mounted from a writable branch over a read-only one. What it shows is one
tree: an entry of the upper branch, or else an entry of the lower branch that no whiteout and no
opaque directory above it hides.

## Main definitions

* `PathOk`: a path that a lookup accepts
* `Through`: a directory in which the lower tree shows
* `union`: the tree of a mount, from the trees of its branches
* `Upper`, `LowerTree`: what is kept of the writable branch, and asked of the read-only one
* `Dentry.At`: the dentry of a path

## Main results

* `union_closed`: the tree of a mount is closed
* `resolve_walk`: a lookup finds the entries of the tree
-/

namespace Meta3dr.Aufs

open Shell

/-! ## The tree -/

/-- A name that a lookup accepts. -/
def NameOk (n : String) : Prop := hasWhPfx n = false ∧ n.utf8ByteSize ≤ maxNameLen

/-- A path that a lookup accepts. -/
def PathOk (p : Path) : Prop := ∀ n ∈ p, NameOk n

/-- A name that no lookup is asked for. -/
def isDot (n : String) : Prop := n = "" ∨ n = "." ∨ n = ".."

@[simp] theorem pathOk_nil : PathOk [] := by simp [PathOk]

@[simp] theorem pathOk_concat {s : Path} {n : String} :
    PathOk (s ++ [n]) ↔ PathOk s ∧ NameOk n := by
  simp [PathOk, or_imp, forall_and]

section Union

variable (u l : Tree)

/-- In the directory of this name the lower tree shows as it does above. -/
def Opens (s : Path) (n : String) : Prop :=
  u (s ++ [whName n]) = none ∧ l (s ++ [n]) = some .dir ∧
    (u (s ++ [n]) = none ∨ u (s ++ [n]) = some .dir ∧ u (s ++ [n] ++ [diropqName]) = none)

/-- A directory in which the lower tree shows. -/
def Through (p : Path) : Prop := ∀ s n, s ++ [n] <+: p → Opens u l s n

/-- A path at which the lower tree shows where the upper has no entry. -/
def Below (p : Path) : Prop := ∀ s n, p = s ++ [n] → Through u l s ∧ u (s ++ [whName n]) = none

open Classical in
/-- The tree of a mount. -/
noncomputable def union : Tree := fun p =>
  if PathOk p then (u p).or (if Below u l p then l p else none) else none

variable {u l} {s p : Path} {n : String}

@[simp] theorem through_nil : Through u l [] := by
  intro s n h
  simp at h

@[simp] theorem through_concat : Through u l (s ++ [n]) ↔ Through u l s ∧ Opens u l s n := by
  constructor
  · intro h
    exact ⟨fun s' n' h' => h s' n' (h'.trans (List.prefix_append _ _)), h s n (List.prefix_refl _)⟩
  · rintro ⟨hs, hn⟩ s' n' h'
    rcases List.prefix_concat_iff.mp h' with heq | h'
    · obtain ⟨rfl, hlast⟩ := List.append_inj' heq rfl
      obtain rfl := List.singleton_inj.mp hlast
      exact hn
    · exact hs s' n' h'

@[simp] theorem below_nil : Below u l [] := by
  intro s n h
  simp at h

@[simp] theorem below_concat :
    Below u l (s ++ [n]) ↔ Through u l s ∧ u (s ++ [whName n]) = none := by
  constructor
  · exact fun h => h s n rfl
  · rintro h s' n' heq
    obtain ⟨rfl, hlast⟩ := List.append_inj' heq rfl
    obtain rfl := List.singleton_inj.mp hlast
    exact h

theorem union_of_upper {x : Node} (hp : PathOk p) (hx : u p = some x) : union u l p = some x := by
  simp [union, hp, hx]

theorem union_of_below (hp : PathOk p) (hu : u p = none) (hb : Below u l p) :
    union u l p = l p := by
  simp [union, hp, hu, hb]

theorem union_of_not_below (hu : u p = none) (hb : ¬ Below u l p) : union u l p = none := by
  simp [union, hu, hb]

/-- A directory of the union is one of the upper tree, or the lower tree shows in it. -/
theorem upper_or_through (h : union u l p = some .dir) :
    u p = some .dir ∨ u p = none ∧ Through u l p := by
  by_cases hp : PathOk p
  · cases hx : u p with
    | some x => exact .inl (union_of_upper hp hx ▸ h)
    | none =>
      by_cases hb : Below u l p
      · rw [union_of_below hp hx hb] at h
        rcases List.eq_nil_or_concat' p with rfl | ⟨s, n, rfl⟩
        · exact .inr ⟨rfl, through_nil⟩
        · obtain ⟨hs, hwh⟩ := below_concat.mp hb
          exact .inr ⟨rfl, through_concat.mpr ⟨hs, hwh, h, .inl hx⟩⟩
      · rw [union_of_not_below hx hb] at h
        cases h
  · simp [union, hp] at h

end Union

/-- What is kept of the writable branch: whiteouts and opaque markers are files, no entry stands
beside its whiteout, and the names are those that can be looked up. -/
structure UpperOff (bad : Set Path) (u : Tree) : Prop where
  closed : u.Closed
  whiteout : ∀ s n x, PathOk s → hasWhPfx n = false → u (s ++ [whName n]) = some x → kind x = .reg
  apart : ∀ s n, PathOk s → hasWhPfx n = false → s ++ [n] ∉ bad → u (s ++ [whName n]) ≠ none →
    u (s ++ [n]) = none
  marker : ∀ s x, PathOk s → u (s ++ [diropqName]) = some x → kind x = .reg
  length : ∀ s n, PathOk s → hasWhPfx n = false → u (s ++ [n]) ≠ none →
    n.utf8ByteSize ≤ maxNameLen
  dots : ∀ s n, PathOk s → isDot n → u (s ++ [n]) = none ∧ u (s ++ [whName n]) = none

abbrev Upper : Tree → Prop := UpperOff ∅

/-- What is asked of the read-only branch: it has names of the union only. -/
structure LowerTree (l : Tree) : Prop where
  closed : l.Closed
  names : ∀ p, l p ≠ none → PathOk p ∧ ∀ n ∈ p, ¬ isDot n

section Closed

variable {u l : Tree} {s p : Path} {n : String}

/-- In a directory in which the lower tree shows, the upper tree has a directory or no entry. -/
theorem through_upper (hu : u.Closed) (h : Through u l p) : u p = some .dir ∨ u p = none := by
  rcases List.eq_nil_or_concat' p with rfl | ⟨s, n, rfl⟩
  · exact .inl hu.root
  · exact ((through_concat.mp h).2.2.2).elim .inr fun h => .inl h.1

theorem union_of_through (hu : u.Closed) (hp : PathOk p) (h : Through u l p) :
    union u l p = some .dir := by
  rcases through_upper hu h with hdir | hnone
  · exact union_of_upper hp hdir
  · rcases List.eq_nil_or_concat' p with rfl | ⟨s, n, rfl⟩
    · exact union_of_upper hp hu.root
    · obtain ⟨hs, hopens⟩ := through_concat.mp h
      rw [union_of_below hp hnone (below_concat.mpr ⟨hs, hopens.1⟩)]
      exact hopens.2.1

/-- **The tree of a mount is closed.** -/
theorem union_closed (hu : u.Closed) : (union u l).Closed := by
  refine ⟨union_of_upper (by simp) hu.root, fun s n h => ?_⟩
  have hp : PathOk (s ++ [n]) := by
    by_contra hp
    simp [union, hp] at h
  have hs := (pathOk_concat.mp hp).1
  cases hx : u (s ++ [n]) with
  | some x => exact union_of_upper hs (hu.parent s n (by simp [hx]))
  | none =>
    by_cases hb : Below u l (s ++ [n])
    · exact union_of_through hu hs (below_concat.mp hb).1
    · exact absurd (union_of_not_below hx hb) h

end Closed

/-! ## Dentries -/

/-- The branches of a mount of a writable branch over a read-only one. -/
def mountBranches (rw ro : Files) : List Branch :=
  [{ perm := .rw, files := rw }, { perm := .rr, files := ro }]

open Classical in
/-- The entry of the lower tree that a dentry keeps, alone or below a directory. -/
noncomputable def lowPart (u l : Tree) (p : Path) : Option Node :=
  if Below u l p ∧ (u p = none ∨ u p = some .dir ∧ l p = some .dir) then l p else none

/-- The dentry of a path. -/
structure Dentry.At (d : Dentry) (u l : Tree) (p : Path) : Prop where
  lower : d.lower = ((u p).map (0, ·)).toList ++ ((lowPart u l p).map (1, ·)).toList
  bwh : ∀ s n, p = s ++ [n] → d.bwh = if (u (s ++ [whName n])).isSome then some 0 else none
  root : p = [] → d.bwh = none
  bdiropq : d.bdiropq =
    if p ≠ [] ∧ u p = some .dir ∧ (u (p ++ [diropqName])).isSome then some 0 else none
  neg : u p = none → lowPart u l p = none →
    d.neg = some (if u p.dropLast = some .dir then 0 else 1)

section Dentry

variable {rw ro : Files} {s p : Path} {n : String} {d : Dentry} {bad : Set Path}

theorem rootDentry_at : (rootDentry (mountBranches rw ro)).At rw.get ro.get [] := by
  refine ⟨?_, ?_, fun _ => rfl, ?_, ?_⟩
  · simp [rootDentry, mountBranches, lowPart, List.range_succ]
  · intro s n h
    simp at h
  · simp [rootDentry]
  · simp

theorem Dentry.At.node {u l : Tree} (h : d.At u l p) (hp : PathOk p) : d.node = union u l p := by
  rw [Dentry.node, h.lower]
  cases hx : u p with
  | some x =>
    rw [union_of_upper hp hx]
    rfl
  | none =>
    by_cases hb : Below u l p
    · rw [union_of_below hp hx hb]
      have hlow : lowPart u l p = l p := by simp [lowPart, hx, hb]
      rw [hlow]
      cases l p <;> rfl
    · rw [union_of_not_below hx hb]
      have hlow : lowPart u l p = none := by simp [lowPart, hb]
      rw [hlow]
      rfl

/-- An entry that the upper branch has not. -/
theorem Dentry.At.lower_of_none {u l : Tree} (h : d.At u l p) (hp : PathOk p) (hu : u p = none)
    {x : Node} (hx : union u l p = some x) : d.lower = [(1, x)] := by
  have hb : Below u l p := by
    by_contra hb
    rw [union_of_not_below hu hb] at hx
    cases hx
  rw [union_of_below hp hu hb] at hx
  rw [h.lower, lowPart, if_pos ⟨hb, .inl hu⟩, hu, hx]
  rfl

theorem pathOk_of_union {u l : Tree} (h : union u l p ≠ none) : PathOk p := by
  by_contra hp
  simp [union, hp] at h

theorem Dentry.At.bwh_eq_none (h : d.At rw.get ro.get p) (hu : UpperOff bad rw.get) (hbad : p ∉ bad)
    (hdir : union rw.get ro.get p = some .dir) : d.bwh = none := by
  have hp := pathOk_of_union (p := p) (by rw [hdir]; exact Option.some_ne_none _)
  rcases List.eq_nil_or_concat' p with rfl | ⟨s, n, rfl⟩
  · exact h.root rfl
  · obtain ⟨hs, hn⟩ := pathOk_concat.mp hp
    have hwh : rw.get (s ++ [whName n]) = none := by
      rcases upper_or_through hdir with hx | ⟨-, hthrough⟩
      · by_contra hwh
        rw [hu.apart s n hs hn.1 hbad hwh] at hx
        cases hx
      · exact (through_concat.mp hthrough).2.1
    rw [h.bwh s n rfl, hwh]
    rfl

theorem through_iff_of_dir {u l : Tree} (hl : l.Closed) (hx : u p = some .dir) :
    Through u l p ↔ (Below u l p ∧ l p = some .dir) ∧
      ¬ (p ≠ [] ∧ (u (p ++ [diropqName])).isSome = true) := by
  rcases List.eq_nil_or_concat' p with rfl | ⟨s, n, rfl⟩
  · simp [hl.root]
  · rw [through_concat, below_concat, Opens]
    simp only [hx, reduceCtorEq, false_or, true_and, ne_eq, List.append_eq_nil_iff,
      List.cons_ne_self, and_false, not_false_eq_true, Bool.not_eq_true, Option.isSome_eq_false_iff,
      Option.isNone_iff_eq_none, and_assoc]

open Classical in
/-- The branches of a directory. -/
theorem Dentry.At.dirs (h : d.At rw.get ro.get p) (hu : UpperOff bad rw.get) (hbad : p ∉ bad)
    (hl : Tree.Closed ro.get) (hdir : union rw.get ro.get p = some .dir) :
    d.dirs (mountBranches rw ro) =
      (if rw.get p = some .dir then [(0, { perm := .rw, files := rw })] else []) ++
        (if Through rw.get ro.get p then [(1, { perm := .rr, files := ro })] else []) := by
  have hbwh := h.bwh_eq_none hu hbad hdir
  rcases upper_or_through hdir with hx | ⟨hx, hthrough⟩
  · have hlow : lowPart rw.get ro.get p =
        if Below rw.get ro.get p ∧ ro.get p = some .dir then some .dir else none := by
      simp only [lowPart, hx, reduceCtorEq, true_and, false_or]
      split_ifs with hb
      · exact hb.2
      · rfl
    have hlower := h.lower
    have hopq := h.bdiropq
    simp only [hx, true_and] at hopq
    rw [hlow, hx] at hlower
    rw [if_pos hx, Dentry.dirs, Dentry.dbtaildir, Dentry.dbtail, hbwh, Dentry.dbend, hopq, hlower]
    simp only [through_iff_of_dir hl hx]
    by_cases hb : Below rw.get ro.get p ∧ ro.get p = some .dir <;>
      by_cases ho : p ≠ [] ∧ (rw.get (p ++ [diropqName])).isSome = true <;>
      simp [hb, ho, mountBranches]
  · have hp := pathOk_of_union (p := p) (by rw [hdir]; exact Option.some_ne_none _)
    have hb : Below rw.get ro.get p := by
      by_contra hb
      rw [union_of_not_below hx hb] at hdir
      cases hdir
    have hlow : lowPart rw.get ro.get p = some .dir := by
      rw [lowPart, if_pos ⟨hb, .inl hx⟩, ← union_of_below hp hx hb]
      exact hdir
    have hlower := h.lower
    have hopq := h.bdiropq
    simp only [hx, reduceCtorEq, false_and, and_false, if_false] at hopq
    rw [hlow, hx] at hlower
    rw [if_neg (by simp [hx]), if_pos hthrough, Dentry.dirs, Dentry.dbtaildir, Dentry.dbtail, hbwh,
      Dentry.dbend, hopq, hlower]
    simp [mountBranches]

theorem UpperOff.sound (hu : UpperOff bad rw.get) (hs : PathOk s) (hn : NameOk n)
    (hbad : s ++ [n] ∉ bad) : Branch.Sound { perm := .rw, files := rw } s n where
  whiteout x hx := hu.whiteout s n x hs hn.1 hx
  apart x hx := hu.apart s n hs hn.1 hbad (by
    change rw.get (s ++ [whName n]) = some x at hx
    rw [hx]
    exact Option.some_ne_none x)
  marker x hx := hu.marker (s ++ [n]) x (pathOk_concat.mpr ⟨hs, hn⟩) hx

/-- A lookup in the writable branch. -/
theorem auDoLookup_upper (hu : UpperOff bad rw.get) (hs : PathOk s) (hn : NameOk n)
    (hbad : s ++ [n] ∉ bad) (b : Bool) (d : Dentry) :
    auDoLookup s n b none 0 { perm := .rw, files := rw } d = .ok
      (if (rw.get (s ++ [whName n])).isSome then (none, { d with
          bwh := some 0
          neg := if b then some 0 else d.neg })
        else match rw.get (s ++ [n]) with
          | none => (none, { d with neg := if b then some 0 else d.neg })
          | some x => (some x, { d with
              lower := d.lower ++ [(0, x)]
              bdiropq := if kind x = .dir ∧ (rw.get (s ++ [n] ++ [diropqName])).isSome then some 0
                else d.bdiropq })) := by
  rw [auDoLookup_sound s fun _ => hu.sound hs hn hbad]
  cases rw.get (s ++ [n]) with
  | none => simp [hides, auBrWhable]
  | some x => simp [hides, auBrWhable]

/-- A lookup in the read-only branch. -/
theorem auDoLookup_lower (b : Bool) (type : Option Kind) (d : Dentry) :
    auDoLookup s n b type 1 { perm := .rr, files := ro } d = .ok
      (match ro.get (s ++ [n]) with
        | none => (none, { d with neg := if b then some 1 else d.neg })
        | some x => if type.any (· != kind x) then (none, d)
          else (some x, { d with lower := d.lower ++ [(1, x)] })) := by
  have hsound : auBrWhable { perm := .rr, files := ro } = true →
      Branch.Sound { perm := .rr, files := ro } s n := fun h => absurd h (by simp [auBrWhable])
  rw [auDoLookup_sound s hsound]
  cases ro.get (s ++ [n]) with
  | none => simp [hides, auBrWhable]
  | some x => simp [hides, auBrWhable]

@[simp] theorem kind_dir : kind .dir = .dir := rfl

@[simp] theorem kind_eq_dir {x : Node} : kind x = .dir ↔ x = .dir := by
  cases x <;> simp [kind]

/-- The end of a lookup, in the read-only branch. -/
theorem auLkupLoop_lower (b : Bool) (type : Option Kind) {d : Dentry}
    (hd : d.bwh = none) :
    auLkupLoop s n b type [(1, { perm := .rr, files := ro })] d = .ok
      (match ro.get (s ++ [n]) with
        | none => { d with neg := if b then some 1 else d.neg }
        | some x => if type.any (· != kind x) then d
          else { d with lower := d.lower ++ [(1, x)] }) := by
  simp only [auLkupLoop, auDoLookup_lower, bind, Except.bind]
  cases ro.get (s ++ [n]) with
  | none => simp [hd]
  | some x =>
    by_cases ht : type.any (· != kind x) = true
    · simp [hd, ht]
    · simp only [ht, if_false, hd, Option.isSome_none, Bool.false_eq_true]
      by_cases hx : x = .dir <;> simp [hx, pure, Except.pure]

open Classical in
/-- The same where the read-only branch need not have the directory. -/
theorem auLkupLoop_tail (type : Option Kind) {c : Prop} {d : Dentry}
    (hd : d.bwh = none) :
    auLkupLoop s n false type (if c then [(1, { perm := .rr, files := ro })] else []) d = .ok
      { d with lower := d.lower ++ (((if c then ro.get (s ++ [n]) else none).filter
          fun x => !type.any (· != kind x)).map (1, ·)).toList } := by
  by_cases hc : c
  · rw [if_pos hc, if_pos hc, auLkupLoop_lower false type hd]
    cases ro.get (s ++ [n]) with
    | none => simp
    | some x => by_cases ht : type.any (· != kind x) = true <;> simp [ht, Option.filter]
  · simp [hc, auLkupLoop]

open Classical in
theorem lowPart_concat {u l : Tree} :
    lowPart u l (s ++ [n]) =
      if u (s ++ [whName n]) = none ∧
          (u (s ++ [n]) = none ∨ u (s ++ [n]) = some .dir ∧ l (s ++ [n]) = some .dir)
        then (if Through u l s then l (s ++ [n]) else none) else none := by
  rw [lowPart, below_concat]
  split_ifs <;> simp_all

theorem Dentry.at_concat {u l : Tree}
    (hlower : d.lower = ((u (s ++ [n])).map (0, ·)).toList ++
      ((lowPart u l (s ++ [n])).map (1, ·)).toList)
    (hbwh : d.bwh = if (u (s ++ [whName n])).isSome then some 0 else none)
    (hopq : d.bdiropq = if u (s ++ [n]) = some .dir ∧ (u (s ++ [n] ++ [diropqName])).isSome
      then some 0 else none)
    (hneg : u (s ++ [n]) = none → lowPart u l (s ++ [n]) = none →
      d.neg = some (if u s = some .dir then 0 else 1)) : d.At u l (s ++ [n]) where
  lower := hlower
  bwh s' n' h := by
    obtain ⟨rfl, hlast⟩ := List.append_inj' h rfl
    obtain rfl := List.singleton_inj.mp hlast
    exact hbwh
  root h := by simp at h
  bdiropq := by simpa using hopq
  neg := by simpa using hneg

/-- A lookup in a directory of the union. -/
theorem aufsLookup_at (hu : UpperOff bad rw.get) (hl : Tree.Closed ro.get)
    (hd : d.At rw.get ro.get s) (hdir : union rw.get ro.get s = some .dir) (hn : NameOk n)
    (hbad : s ∉ bad) (hbad' : s ++ [n] ∉ bad) :
    ∃ d', aufsLookup (mountBranches rw ro) s d n = .ok d' ∧ d'.At rw.get ro.get (s ++ [n]) := by
  have hs := pathOk_of_union (p := s) (by rw [hdir]; exact Option.some_ne_none _)
  suffices h : ∃ d', auLkupLoop s n true none (d.dirs (mountBranches rw ro)) {} = .ok d' ∧
      d'.dbstart.isNone = false ∧ d'.At rw.get ro.get (s ++ [n]) by
    obtain ⟨d', hloop, hstart, hat⟩ := h
    refine ⟨d', ?_, hat⟩
    rw [aufsLookup, if_neg (Nat.not_lt.mpr hn.2)]
    simp [auLkupDentry, hn.1, hloop, hstart, bind, Except.bind, pure, Except.pure]
  rw [hd.dirs hu hbad hl hdir]
  by_cases hx : rw.get s = some .dir
  · rw [if_pos hx]
    simp only [List.singleton_append, auLkupLoop, auDoLookup_upper hu hs hn hbad',
      bind, Except.bind]
    cases hw : rw.get (s ++ [whName n]) with
    | some v =>
      -- the whiteout hides the lower entry, and nothing stands beside it
      have hnone := hu.apart s n hs hn.1 hbad' (by simp [hw])
      refine ⟨_, by simp; rfl, by simp [Dentry.dbstart], ?_⟩
      refine Dentry.at_concat ?_ (by simp [hw]) (by simp [hnone]) fun _ _ => by simp [hx]
      simp [hnone, lowPart_concat, hw]
    | none =>
      cases hy : rw.get (s ++ [n]) with
      | none =>
        refine ⟨_, by simp [auLkupLoop_tail]; rfl, by simp [Dentry.dbstart], ?_⟩
        refine Dentry.at_concat ?_ (by simp [hw]) (by simp [hy]) fun _ _ => by simp [hx]
        have hfilter : ∀ o : Option Node, o.filter (fun _ => true) = o := by
          rintro (_ | _) <;> rfl
        simp [hy, lowPart_concat, hw, hfilter]
      | some y =>
        by_cases hk : y = .dir
        · -- below a directory of the upper branch a directory of the lower one is kept
          refine ⟨_, by simp [hk, auLkupLoop_tail]; rfl, by simp [Dentry.dbstart], ?_⟩
          refine Dentry.at_concat ?_ (by simp [hw]) (by simp [hy, hk]) fun h => by simp [hy] at h
          by_cases ht : Through rw.get ro.get s
          · cases hz : ro.get (s ++ [n]) with
            | none => simp [hy, hk, lowPart_concat, hw, hz]
            | some z =>
              have hkz : Kind.dir = kind z ↔ z = .dir := eq_comm.trans kind_eq_dir
              by_cases hz' : z = .dir <;>
                simp [hy, hk, lowPart_concat, hw, hz, hz', ht, Option.filter, hkz]
          · simp [hy, hk, lowPart_concat, ht]
        · refine ⟨_, by simp [hk, pure, Except.pure]; rfl, by simp [Dentry.dbstart], ?_⟩
          refine Dentry.at_concat ?_ (by simp [hw]) (by simp [hy, hk]) fun h => by simp [hy] at h
          simp [hy, hk, lowPart_concat, hw]
  · have hthrough := ((upper_or_through hdir).resolve_left hx).2
    have hnone : ∀ m, rw.get (s ++ [m]) = none := fun m => hu.closed.eq_none hx (by simp)
    rw [if_neg hx, if_pos hthrough, List.nil_append, auLkupLoop_lower true none rfl]
    cases hz : ro.get (s ++ [n]) with
    | none =>
      refine ⟨_, rfl, by simp [Dentry.dbstart], ?_⟩
      refine Dentry.at_concat ?_ (by simp [hnone]) (by simp [hnone]) fun _ _ => by simp [hx]
      simp [hnone, lowPart_concat, hz]
    | some z =>
      refine ⟨_, rfl, by simp [Dentry.dbstart], ?_⟩
      have hlow : lowPart rw.get ro.get (s ++ [n]) = some z := by
        simp [hnone, lowPart_concat, hz, hthrough]
      refine Dentry.at_concat ?_ (by simp [hnone]) (by simp [hnone]) fun _ h => ?_
      · simp [hnone, hlow]
      · rw [hlow] at h
        cases h

/-- A walk in a plain tree, to the entry of a path below a directory. -/
def Tree.walk (T : Tree) : Path → Path → Except Errno (Option Node)
  | dir, [] => .ok (T dir)
  | dir, n :: p =>
    match T dir with
    | none => .error .enoent
    | some .dir =>
      if maxNameLen < n.utf8ByteSize then .error .enametoolong
      else if hasWhPfx n then .error .eperm
      else T.walk (dir ++ [n]) p
    | some _ => .error .enotdir

/-- A walk finds an entry of a closed tree. -/
theorem Tree.Closed.walk_eq {T : Tree} (hT : T.Closed) (hok : ∀ p, T p ≠ none → PathOk p)
    {r : Path} (h : T (s ++ r) ≠ none) : T.walk s r = .ok (T (s ++ r)) := by
  induction r generalizing s with
  | nil => simp [Tree.walk]
  | cons n r ih =>
    have hdir := hT.dir_above h (by simp)
    have hn := hok _ h n (by simp)
    rw [List.append_cons] at h ⊢
    simp only [Tree.walk, hdir, if_neg (Nat.not_lt.mpr hn.2), hn.1, Bool.false_eq_true, if_false]
    exact ih h

/-- A walk in the mount follows that in the tree of the union. -/
theorem resolveFrom_at (hu : UpperOff bad rw.get) (hl : Tree.Closed ro.get) (hs : PathOk s)
    (hd : d.At rw.get ro.get s) (p : Path) (hbad : ∀ r, r <+: s ++ p → r ∉ bad) :
    match (union rw.get ro.get).walk s p with
    | .error e => resolveFrom (mountBranches rw ro) s d p = .error e
    | .ok x => PathOk (s ++ p) ∧ x = union rw.get ro.get (s ++ p) ∧
        ∃ d', resolveFrom (mountBranches rw ro) s d p = .ok d' ∧ d'.At rw.get ro.get (s ++ p) := by
  induction p generalizing s d with
  | nil => simpa [Tree.walk, resolveFrom] using ⟨hs, hd⟩
  | cons n p ih =>
    have hnode := hd.node hs
    simp only [Tree.walk, resolveFrom, hnode]
    cases hx : union rw.get ro.get s with
    | none => rfl
    | some x =>
      by_cases hdir : x = .dir
      · subst hdir
        simp only
        by_cases hlen : maxNameLen < n.utf8ByteSize
        · simp [hlen, aufsLookup, bind, Except.bind, throw, throwThe, MonadExceptOf.throw]
        · by_cases hwh : hasWhPfx n = true
          · simp [hlen, hwh, aufsLookup, auLkupDentry, bind, Except.bind, throw, throwThe,
              MonadExceptOf.throw]
          · have hn : NameOk n := ⟨by simpa using hwh, Nat.not_lt.mp hlen⟩
            obtain ⟨d₁, hlook, hat⟩ := aufsLookup_at hu hl hd hx hn
              (hbad s (List.prefix_append _ _)) (hbad _ (by simp))
            have hrest := ih (pathOk_concat.mpr ⟨hs, hn⟩) hat (by simpa using hbad)
            simp only [hlen, if_false, hwh, hlook, bind, Except.bind]
            simpa using hrest
      · cases x <;> simp_all

/-- **A lookup in the mount finds the entries of the union**: it succeeds where a walk in the plain
tree does, with the entry that is there, and fails with the same error otherwise. -/
theorem resolve_walk (hu : Upper rw.get) (hl : Tree.Closed ro.get) (p : Path) :
    (resolve (mountBranches rw ro) p).map Dentry.node = (union rw.get ro.get).walk [] p := by
  have h := resolveFrom_at hu hl pathOk_nil rootDentry_at p (by simp)
  rw [resolve]
  cases hw : (union rw.get ro.get).walk [] p with
  | error e =>
    rw [hw] at h
    rw [show resolveFrom _ _ _ _ = _ from h]
    rfl
  | ok x =>
    rw [hw] at h
    obtain ⟨hok, rfl, d, hres, hat⟩ := h
    rw [hres]
    exact congrArg Except.ok (hat.node hok)

end Dentry

/-- A writable branch with a whiteout and a file. -/
def sampleRw : Files := ((∅ : Files).insert [".wh.a"] (.file [])).insert ["b"] (.file [])

/-- A read-only branch with a file and two directories. -/
def sampleRo : Files :=
  (((∅ : Files).insert ["a"] (.file [])).insert ["b"] .dir).insert ["c"] .dir

theorem sampleRw_names {s : Path} {n : String} (h : sampleRw.get (s ++ [n]) ≠ none) :
    s = [] ∧ (n = "b" ∨ n = ".wh.a") := by
  by_contra hnot
  refine h ?_
  have hne : ∀ a, a = "b" ∨ a = ".wh.a" → s ++ [n] ≠ [a] := by
    intro a ha heq
    obtain ⟨hs, hn⟩ := List.append_inj' (show s ++ [n] = [] ++ [a] from heq) rfl
    exact hnot ⟨hs, List.singleton_inj.mp hn ▸ ha⟩
  rw [sampleRw, Files.get_insert_ne _ _ (hne _ (.inl rfl)),
    Files.get_insert_ne _ _ (hne _ (.inr rfl)), Files.get_of_ne_nil _ (by simp)]
  rfl

theorem sampleRo_names {s : Path} {n : String} (h : sampleRo.get (s ++ [n]) ≠ none) :
    s = [] ∧ n ∈ ["a", "b", "c"] := by
  by_contra hnot
  refine h ?_
  have hne : ∀ a ∈ ["a", "b", "c"], s ++ [n] ≠ [a] := by
    intro a ha heq
    obtain ⟨hs, hn⟩ := List.append_inj' (show s ++ [n] = [] ++ [a] from heq) rfl
    exact hnot ⟨hs, List.singleton_inj.mp hn ▸ ha⟩
  rw [sampleRo, Files.get_insert_ne _ _ (hne "c" (by simp)),
    Files.get_insert_ne _ _ (hne "b" (by simp)), Files.get_insert_ne _ _ (hne "a" (by simp)),
    Files.get_of_ne_nil _ (by simp)]
  rfl

theorem upper_sample : Upper sampleRw.get where
  closed := ⟨rfl, fun s n h => (sampleRw_names h).1 ▸ rfl⟩
  whiteout s n x _ _ h := by
    obtain ⟨rfl, hb | ha⟩ := sampleRw_names (n := whName n) (s := s) (by simp [h])
    · exact absurd (hb ▸ hasWhPfx_whName n) (by decide)
    · rw [ha] at h
      rw [← Option.some.inj ((rfl : _ = some (Node.file [])).symm.trans h)]
      rfl
  apart s n _ _ _ h := by
    obtain ⟨rfl, hb | ha⟩ := sampleRw_names h
    · exact absurd (hb ▸ hasWhPfx_whName n) (by decide)
    · obtain rfl : n = "a" := whName_inj.mp (ha.trans (by decide : ".wh.a" = whName "a"))
      rfl
  marker s x _ h := by
    obtain ⟨-, hb | ha⟩ := sampleRw_names (n := diropqName) (s := s) (by simp [h])
    · exact absurd hb (by decide)
    · exact absurd ha (by decide)
  length s n _ hn h := by
    obtain ⟨-, rfl | rfl⟩ := sampleRw_names h
    · decide
    · exact absurd hn (by decide)
  dots s n _ hdot := by
    constructor <;> by_contra h <;> obtain ⟨-, hb | ha⟩ := sampleRw_names h
    · exact absurd hdot (by simp [hb, isDot])
    · exact absurd hdot (by simp [ha, isDot])
    · exact absurd (hb ▸ hasWhPfx_whName n) (by decide)
    · obtain rfl : n = "a" := whName_inj.mp (ha.trans (by decide : ".wh.a" = whName "a"))
      exact absurd hdot (by simp [isDot])

theorem lowerTree_sample : LowerTree sampleRo.get where
  closed := ⟨rfl, fun s n h => (sampleRo_names h).1 ▸ rfl⟩
  names p h := by
    rcases List.eq_nil_or_concat' p with rfl | ⟨s, n, rfl⟩
    · simp
    · obtain ⟨rfl, hn⟩ := sampleRo_names h
      simp only [List.mem_cons, List.not_mem_nil, or_false] at hn
      rcases hn with rfl | rfl | rfl <;> simp [PathOk, NameOk, isDot] <;> decide

theorem resolve_walk_sample :
    (resolve (mountBranches sampleRw sampleRo) ["c", "x"]).map Dentry.node =
      (union sampleRw.get sampleRo.get).walk [] ["c", "x"] :=
  resolve_walk upper_sample lowerTree_sample.closed ["c", "x"]

end Meta3dr.Aufs
