import Meta3dr.Aufs.Steps

/-!
# Removal of an entry

An entry that is removed is hidden by a whiteout where a lower branch has it too. The whiteout comes
first; in between the entry stands beside its whiteout, which a lookup refuses.

## Main definitions

* `Stands`, `Torn`, `Bared`: the mount shows a tree; it does so but for one entry, which stands
  beside its whiteout, or has lost it
* `Reached`, `Failed`: where an operation may be when it stops, and when it fails

## Main results

* `lockHdirCreateWh_spec`: the whiteout of an entry
* `aufsUnlink_spec`, `aufsRmdir_spec`: the entry is gone, or nothing has changed
-/

namespace Meta3dr.Aufs

open Shell Program

/-! ## States of a mount -/

section States

variable (ro : Files) (fs : List (Option Errno)) (V V' : Tree) (s : Path) (n : String)

/-- The mount shows a tree. -/
def Stands : Mount → Prop := OnUpper ro fs fun rw => Upper rw.get ∧ union rw.get ro.get = V

/-- The mount shows a tree, but for an entry that stands beside its whiteout. -/
def Torn : Mount → Prop :=
  OnUpper ro fs fun rw => PathOk (s ++ [n]) ∧ UpperOff {s ++ [n]} rw.get ∧
    rw.get (s ++ [n]) ≠ none ∧ rw.get (s ++ [whName n]) ≠ none ∧
    ∀ q, ¬ s ++ [n] <+: q → union rw.get ro.get q = V q

/-- The mount shows a tree, but for an entry and what lies below it. -/
def Bared : Mount → Prop :=
  OnUpper ro fs fun rw => Upper rw.get ∧ ∀ q, ¬ s ++ [n] <+: q → union rw.get ro.get q = V q

/-- Where an operation may be when it stops: the tree before or after, or the entry beside its
whiteout. Only where steps fail an entry that the whiteout had hidden may show. -/
def Reached (m : Mount) : Prop :=
  Stands ro fs V m ∨ Stands ro fs V' m ∨ Torn ro fs V s n m ∨ Faulty fs ∧ Bared ro fs V s n m

/-- What an operation that fails leaves behind: the tree as it was, unless it says `EIO`. -/
def Failed (e : Errno) (m : Mount) : Prop :=
  Faulty fs ∧ (Stands ro fs V m ∨ e = .eio ∧ Reached ro fs V V' s n m)

end States

section States

variable {O : Prop} {ro : Files} {fs : List (Option Errno)} {V V' T T' : Tree} {s : Path}
  {n : String} {m : Mount}

theorem OnUpper.stands (h : OnUpper ro fs (Shows T) m) (hu : Upper T) (hV : union T ro.get = V) :
    Stands ro fs V m := by
  obtain ⟨rw, hbr, hc, hfs, rfl⟩ := h
  exact ⟨rw, hbr, hc, hfs, upper_vis.mp ⟨hu, hc⟩, union_vis.symm.trans hV⟩

theorem OnUpper.stands_copiedUp (h : OnUpper ro fs (Shows T') m) (hcp : CopiedUp ro.get s T T') :
    Stands ro fs (union T ro.get) m :=
  h.stands hcp.upper hcp.union

theorem OnUpper.torn (h : OnUpper ro fs (Shows T') m) (hu : Upper T) (hc : ChangeAt s n T T')
    (hT' : T'.Closed) (hp : PathOk (s ++ [n])) (hdot : ¬ isDot n) (hentry : T' (s ++ [n]) ≠ none)
    (hwh : T' (s ++ [whName n]) ≠ none) : Torn ro fs (union T ro.get) s n m := by
  obtain ⟨rw, hbr, hclosed, hfs, rfl⟩ := h
  obtain ⟨hs, hn⟩ := pathOk_concat.mp hp
  refine ⟨rw, hbr, hclosed, hfs, hp, upper_vis.mp ⟨?_, hclosed⟩, ?_, ?_, fun q hq => ?_⟩
  · exact hc.upper hu hn hdot hT' fun h => absurd rfl h
  · rwa [vis_of (visible_of_pathOk hp)] at hentry
  · rwa [vis_of (visible_whName hs hn.1)] at hwh
  · rw [← hc.union_off hn hq, union_vis]

end States

/-- What a lookup of a name in a directory leaves. -/
structure LookedUp (l T : Tree) (s : Path) (n : String) (parent d : Dentry) : Prop where
  upper : Upper T
  lower : LowerTree l
  dir : union T l s = some .dir
  parent : parent.At T l s
  dentry : d.At T l (s ++ [n])
  ok : PathOk (s ++ [n])

/-! ## The whiteout -/

section Whiteout

variable {O : Prop} {ro : Files} {fs : List (Option Errno)} {J : Mount → Prop} {T : Tree}
  {s : Path} {n : String}
  {d parent : Dentry}

theorem concat_not_le (s : Path) (n : String) : ¬ s ++ [n] <+: s := fun h => by
  simpa using h.length_le

/-- Nothing at or below an entry is its whiteout. -/
theorem below_ne_whName (hn : NameOk n) (s r : Path) : s ++ [n] ++ r ≠ s ++ [whName n] := by
  intro h
  rw [List.append_assoc] at h
  exact ne_whName hn.1 n (Option.some.inj (congrArg List.head? (List.append_cancel_left h)))

/-- The whiteout of an entry is made. -/
theorem auWhCreate_spec (hJ : ∀ m, OnUpper ro fs (Shows T) m → J m) (hp : PathOk (s ++ [n]))
    (hdir : T s = some .dir) (hwh : T (s ++ [whName n]) = none) :
    Spec O J (OnUpper ro fs (Shows T)) (auWhCreate 0 s n)
      (fun _ => OnUpper ro fs (Shows (Function.update T (s ++ [whName n]) (some (.file [])))))
      fun _ m => OnUpper ro fs (Shows T) m ∧ Faulty fs := by
  obtain ⟨hs, hn⟩ := pathOk_concat.mp hp
  have hvis := visible_whName hs hn.1
  refine Trial.Triple.bind _ (lkupOne_spec hJ) fun x => ?_
  refine Trial.Triple.ite (fun _ => ?_) fun hx => ?_
  · refine ((Spec.lower (.create _ _) hJ fun rw rw' hc hK hget => ?_).mono
      (fun _ h => h.mono fun _ h => h.1) (fun _ _ h => h)
      (fun _ m h => ⟨h.1, h.2 fun rw hc hK => ⟨?_, ?_⟩⟩) fun _ _ h => h)
    · rw [Shows, hget]
      exact (vis_update hvis _).trans (congrArg (fun T => Function.update T _ _) hK)
    · rw [hK.get hvis, hwh]
    · rw [List.dropLast_concat, hK.get (visible_of_pathOk hs), hdir]
  · refine Trial.Triple.pure fun m hm => ?_
    obtain ⟨rw, -, -, -, hK, hget⟩ := hm
    rw [Shows.get hK hvis, hwh] at hget
    rw [← hget] at hx
    exact absurd rfl hx

/-- Below an entry of the writable branch the lower branch is asked. -/
theorem auLkupBelow_spec {rw : Files} (hu : Upper rw.get) (hl : Tree.Closed ro.get)
    (hs : union rw.get ro.get s = some .dir) (hparent : parent.At rw.get ro.get s)
    (hd : d.At rw.get ro.get (s ++ [n])) (hp : PathOk (s ++ [n])) (hx : rw.get (s ++ [n]) ≠ none) :
    ∃ k, auLkupBelow s n true none 0
        ((parent.dirs (mountBranches rw ro)).filter fun x => 0 < x.1) d = .ok k ∧
      (k ≠ 0 ↔ Through rw.get ro.get s ∧ ro.get (s ++ [n]) ≠ none) := by
  obtain ⟨hsok, hn⟩ := pathOk_concat.mp hp
  have hwh : rw.get (s ++ [whName n]) = none := by
    by_contra hwh
    exact hx (hu.apart s n hsok hn.1 (Set.notMem_empty _) hwh)
  have hbwh : d.bwh = none := by
    rw [hd.bwh s n rfl, hwh]
    rfl
  have hfilter : ((parent.dirs (mountBranches rw ro)).filter fun x => 0 < x.1) = [] ∧
      ¬ Through rw.get ro.get s ∨
      ((parent.dirs (mountBranches rw ro)).filter fun x => 0 < x.1) =
        [(1, { perm := .rr, files := ro })] ∧ Through rw.get ro.get s := by
    rw [hparent.dirs hu (Set.notMem_empty _) hl hs]
    by_cases hdir : rw.get s = some .dir <;> by_cases ht : Through rw.get ro.get s <;>
      simp [hdir, ht]
  rcases hfilter with ⟨hf, ht⟩ | ⟨hf, ht⟩
  · exact ⟨0, by rw [hf]; rfl, by simp [ht]⟩
  · rw [hf]
    by_cases hptr : d.hDptr 1 = true
    · refine ⟨1, by simp [auLkupBelow, hptr, pure, Except.pure], ?_⟩
      have hlow : lowPart rw.get ro.get (s ++ [n]) ≠ none := by
        intro hlow
        obtain ⟨x, hx⟩ := Option.ne_none_iff_exists'.mp hx
        simp [Dentry.hDptr, hd.lower, hlow, hx] at hptr
      have hro : ro.get (s ++ [n]) ≠ none := by
        intro hro
        exact hlow (by simp [lowPart, hro])
      simp [ht, hro]
    · simp only [auLkupBelow, hptr, Bool.false_eq_true, if_false, auDoLookup_lower,
        bind, Except.bind]
      cases hro : ro.get (s ++ [n]) with
      | none => exact ⟨0, by simp [hbwh], by simp⟩
      | some x =>
        refine ⟨1, ?_, by simp [ht]⟩
        simp only [Option.any_none, Bool.false_eq_true, if_false, hbwh, Option.isSome_none]
        split_ifs <;> rfl

variable (hlook : LookedUp ro.get T s n parent d)
  (hJ : ∀ T' m, CopiedUp ro.get s T T' → OnUpper ro fs (Shows T') m → J m)
include hlook

/-- An entry of the union has no whiteout beside it. -/
theorem LookedUp.whiteout_none (hx : union T ro.get (s ++ [n]) ≠ none) :
    T (s ++ [whName n]) = none := by
  obtain ⟨hs, hn⟩ := pathOk_concat.mp hlook.ok
  by_contra hwh
  have hnone := hlook.upper.apart s n hs hn.1 (Set.notMem_empty _) hwh
  refine hx (union_of_not_below hnone fun hb => hwh (below_concat.mp hb).2)

include hJ

theorem auWrDirNeedWh_spec (hx : union T ro.get (s ++ [n]) ≠ none) :
    Spec O J (OnUpper ro fs (Shows T)) (auWrDirNeedWh s n parent d)
      (fun r m => r.2 = 0 ∧ ∃ T', (CopiedUp ro.get s T T' ∧ T' s = some .dir ∧
        (r.1 = false → ¬ Through T' ro.get s ∨ ro.get (s ++ [n]) = none)) ∧
        OnUpper ro fs (Shows T') m)
      fun _ m => (∃ T', CopiedUp ro.get s T T' ∧ OnUpper ro fs (Shows T') m) ∧ Faulty fs := by
  obtain ⟨hu, hl, hs, hparent, hd, hp⟩ := hlook
  have hJT : ∀ m, OnUpper ro fs (Shows T) m → J m := fun m => hJ T m (CopiedUp.refl hu)
  refine Spec.read hJT fun rw hc hrw => ?_
  subst hrw
  have hback : ∀ m, OnUpper ro fs (· = rw) m → OnUpper ro fs (Shows (vis rw.get)) m := fun m hm =>
    hm.mono (by rintro rw rfl; rfl)
  by_cases hT : vis rw.get (s ++ [n]) = none
  · -- the entry is in the read-only branch: the directories are copied up
    have hstart := hd.dbstart_of_lower hp hT hx
    simp only [hstart, Option.getD_some, writable_one, Bool.false_eq_true, if_false]
    refine Trial.Triple.bind _ ((auWbrCreateTdp_spec hJT hu hl.closed hs hparent hd hp).mono hback
      (fun _ _ h => h) (fun _ _ h => h.elim) fun _ _ h => h) fun b => Spec.pre fun hb => ?_
    subst hb
    refine Trial.Triple.ite (fun _ => ?_) fun h => absurd h (by simp)
    refine Trial.Triple.bind _ (auCpupDirs_spec hu hl hs hJ) fun _ => ?_
    refine Trial.Triple.pure fun m hm => ⟨rfl, ?_⟩
    obtain ⟨T', ⟨hcp, hdir⟩, hm⟩ := hm
    exact ⟨T', ⟨hcp, hdir, fun h => by cases h⟩, hm⟩
  · have hstart := hd.dbstart_of_upper hT
    have hdir : vis rw.get s = some .dir := hu.closed.parent s n hT
    simp only [hstart, Option.getD_some, writable_zero, if_true]
    refine Trial.Triple.bind (fun b m => b = 0 ∧ OnUpper ro fs (Shows (vis rw.get)) m)
      (Trial.Triple.pure fun m hm => ⟨rfl, hback m hm⟩) fun b => Spec.pre fun hb => ?_
    subst hb
    refine Trial.Triple.ite (fun h => absurd rfl h) fun _ => ?_
    refine Trial.Triple.bind _ ((Spec.check hJT).mono_err fun _ _ h =>
      ⟨⟨_, CopiedUp.refl hu, h.1⟩, h.2⟩) fun _ => ?_
    obtain ⟨hsok, -⟩ := pathOk_concat.mp hp
    obtain ⟨k, hk, hiff⟩ := auLkupBelow_spec (upper_vis.mp ⟨hu, hc⟩) hl.closed
      (union_vis (u := rw.get) ▸ hs) ((at_vis hsok).mp hparent) ((at_vis hp).mp hd) hp
      (by rwa [vis_of (visible_of_pathOk hp)] at hT)
    rw [hk]
    refine Trial.Triple.pure fun m hm =>
      ⟨rfl, vis rw.get, ⟨CopiedUp.refl hu, hdir, fun h => ?_⟩, hm⟩
    have hzero : ¬ (Through rw.get ro.get s ∧ ro.get (s ++ [n]) ≠ none) := by
      rw [← hiff]
      simpa using h
    rw [through_vis hsok]
    tauto

/-- The entry is still there. -/
theorem auMayDel_spec {T' : Tree} (hcp : CopiedUp ro.get s T T') (isdir : Bool)
    (hkind : (isdir = true ↔ union T ro.get (s ++ [n]) = some .dir))
    (hx : T (s ++ [n]) ≠ none) :
    Spec O J (OnUpper ro fs (Shows T')) (auMayDel s n d 0 isdir)
      (fun _ => OnUpper ro fs (Shows T')) fun _ m => OnUpper ro fs (Shows T') m ∧ Faulty fs := by
  obtain ⟨hu, hl, hs, hparent, hd, hp⟩ := hlook
  have hJT : ∀ m, OnUpper ro fs (Shows T') m → J m := fun m => hJ T' m hcp
  have hnode := hd.node hp
  have hfound : T' (s ++ [n]) ≠ none := by
    rwa [hcp.off _ (concat_not_le s n)]
  have h₁ : (!isdir && d.node = some .dir) = false := by
    rw [hnode]
    cases isdir <;> simp_all
  have h₂ : (isdir && d.node ≠ some .dir) = false := by
    rw [hnode]
    cases isdir <;> simp_all
  rw [auMayDel]
  simp only [h₁, h₂, Bool.false_eq_true, if_false]
  refine Spec.attempt_bind _ _ (lkupOne_spec hJT) (fun x => ?_)
    fun e => Trial.Triple.throw fun _ h => h
  cases x with
  | some x => exact Trial.Triple.pure fun m hm => hm.mono fun _ h => h.1
  | none =>
    refine Trial.Triple.throw fun m hm => ?_
    obtain ⟨rw, -, -, -, hK, hget⟩ := hm
    rw [Shows.get hK (visible_of_pathOk hp)] at hget
    exact absurd hget hfound

/-- **The whiteout is made before the entry goes**, where a lower branch has it. -/
theorem lockHdirCreateWh_spec (isdir : Bool)
    (hkind : (isdir = true ↔ union T ro.get (s ++ [n]) = some .dir))
    (hx : union T ro.get (s ++ [n]) ≠ none) :
    Spec O J (OnUpper ro fs (Shows T)) (lockHdirCreateWh s n parent d isdir)
      (fun r m => r.2 = 0 ∧ ∃ T', (CopiedUp ro.get s T T' ∧ T' s = some .dir ∧
        (r.1 = false → ¬ Through T' ro.get s ∨ ro.get (s ++ [n]) = none)) ∧
        OnUpper ro fs (Shows
          (if r.1 then Function.update T' (s ++ [whName n]) (some (.file [])) else T')) m)
      fun _ m => (∃ T', CopiedUp ro.get s T T' ∧ OnUpper ro fs (Shows T') m) ∧ Faulty fs := by
  refine Trial.Triple.bind _ (auWrDirNeedWh_spec hlook hJ hx) fun r => Spec.pre fun hr =>
    Spec.exists fun T' => Spec.pre fun ⟨hcp, hdir, hlow⟩ => ?_
  obtain ⟨wh, b⟩ := r
  obtain rfl : b = 0 := hr
  have hJT : ∀ m, OnUpper ro fs (Shows T') m → J m := fun m => hJ T' m hcp
  have hfail : ∀ (e : Errno) m, OnUpper ro fs (Shows T') m ∧ Faulty fs →
      (∃ T', CopiedUp ro.get s T T' ∧ OnUpper ro fs (Shows T') m) ∧ Faulty fs := fun _ _ h =>
    ⟨⟨T', hcp, h.1⟩, h.2⟩
  have hwh : T' (s ++ [whName n]) = none := by
    rw [hcp.off _ (concat_not_le s _), hlook.whiteout_none hx]
  have hcreate : Spec O J (OnUpper ro fs (Shows T'))
      (do
        if wh = true then auWhCreate 0 s n
        return (wh, 0))
      (fun r m => r.2 = 0 ∧ ∃ T', (CopiedUp ro.get s T T' ∧ T' s = some .dir ∧
        (r.1 = false → ¬ Through T' ro.get s ∨ ro.get (s ++ [n]) = none)) ∧
        OnUpper ro fs (Shows
          (if r.1 then Function.update T' (s ++ [whName n]) (some (.file [])) else T')) m)
      fun _ m => (∃ T', CopiedUp ro.get s T T' ∧ OnUpper ro fs (Shows T') m) ∧ Faulty fs := by
    refine Trial.Triple.ite (fun hw => ?_) fun hw => ?_
    · refine Trial.Triple.bind _ ((auWhCreate_spec hJT hlook.ok hdir hwh).mono_err hfail)
        fun _ => ?_
      exact Trial.Triple.pure fun m hm => ⟨rfl, T', ⟨hcp, hdir, hlow⟩, by simpa [hw] using hm⟩
    · exact Trial.Triple.pure fun m hm => ⟨rfl, T', ⟨hcp, hdir, hlow⟩, by simpa [hw] using hm⟩
  refine Trial.Triple.bind _ ((Spec.check hJT).mono_err hfail) fun _ => ?_
  refine Trial.Triple.ite (fun hstart => ?_) fun _ => hcreate
  have hT : T (s ++ [n]) ≠ none := by
    intro hT
    have hstart : d.dbstart = some 0 := hstart
    rw [hlook.dentry.dbstart_of_lower hlook.ok hT hx] at hstart
    cases hstart
  exact Trial.Triple.bind _ ((auMayDel_spec hlook hJ hcp isdir hkind hT).mono_err hfail)
    fun _ => hcreate

end Whiteout

/-! ## Operations -/

section Operations

variable {O : Prop} {ro : Files} {fs : List (Option Errno)} {T T' T₂ : Tree} {s : Path} {n : String}
  {d parent : Dentry} {m : Mount}

theorem OnUpper.tree_closed (h : OnUpper ro fs (Shows T) m) : T.Closed := by
  obtain ⟨rw, -, hc, -, rfl⟩ := h
  exact vis_closed hc

/-- The entry is gone, and hidden where a lower branch has it. -/
theorem OnUpper.removed (h : OnUpper ro fs (Shows T₂) m) (hcp : CopiedUp ro.get s T T')
    (hc : ChangeAt s n T' T₂) (hn : NameOk n) (hdot : ¬ isDot n) (hnone : T₂ (s ++ [n]) = none)
    (hhidden : T₂ (s ++ [whName n]) ≠ none ∨ ¬ Through T' ro.get s ∨ ro.get (s ++ [n]) = none)
    (hempty : ∀ m, union T ro.get (s ++ [n] ++ [m]) = none) :
    Stands ro fs (Function.update (union T ro.get) (s ++ [n]) none) m := by
  refine h.stands (hc.upper hcp.upper hn hdot h.tree_closed fun _ _ => hnone) ?_
  rw [hc.union_remove hcp.upper.closed h.tree_closed hn hnone hhidden
    (by rwa [hcp.union]), hcp.union]

/-- An entry of the union has no dot for a name. -/
theorem LookedUp.not_isDot (hlook : LookedUp ro.get T s n parent d)
    (hx : union T ro.get (s ++ [n]) ≠ none) : ¬ isDot n := by
  by_cases hT : T (s ++ [n]) = none
  · exact hlook.lower.not_isDot hT hx
  · exact fun hdot => hT (hlook.upper.dots s n (pathOk_concat.mp hlook.ok).1 hdot).1

/-- The common end of a removal: the entry goes in its branch, or the whiteout is taken back. -/
theorem remove_spec (hlook : LookedUp ro.get T s n parent d) (isdir : Bool)
    (hkind : (isdir = true ↔ union T ro.get (s ++ [n]) = some .dir))
    (hx : union T ro.get (s ++ [n]) ≠ none)
    (hempty : ∀ m, union T ro.get (s ++ [n] ++ [m]) = none) (rm : ℕ → Exec Unit)
    (hrm : ∀ T₁, T (s ++ [n]) ≠ none → (∀ r, T₁ (s ++ [n] ++ r) = T (s ++ [n] ++ r)) →
      (∀ m, OnUpper ro fs (Shows T₁) m →
        Reached ro fs (union T ro.get) (Function.update (union T ro.get) (s ++ [n]) none) s n m) →
      (∀ m, OnUpper ro fs (Shows fun q => if s ++ [n] <+: q then none else T₁ q) m →
        Reached ro fs (union T ro.get) (Function.update (union T ro.get) (s ++ [n]) none) s n m) →
      Spec O (Reached ro fs (union T ro.get) (Function.update (union T ro.get) (s ++ [n]) none) s n)
        (OnUpper ro fs (Shows T₁)) (rm 0)
        (fun _ => OnUpper ro fs (Shows fun q => if s ++ [n] <+: q then none else T₁ q))
        fun _ m => OnUpper ro fs (Shows T₁) m ∧ Faulty fs) :
    Spec O (Reached ro fs (union T ro.get) (Function.update (union T ro.get) (s ++ [n]) none) s n)
      (OnUpper ro fs (Shows T))
      (do
        let (wh, bindex) ← lockHdirCreateWh s n parent d isdir
        if d.dbstart = some bindex then
          let r ← Trial.attempt (rm bindex)
          if let .error e := r then
            if wh then
              doRevert s n bindex
            throw e)
      (fun _ => Stands ro fs (Function.update (union T ro.get) (s ++ [n]) none))
      (Failed ro fs (union T ro.get) (Function.update (union T ro.get) (s ++ [n]) none) s n) := by
  obtain ⟨hs, hn⟩ := pathOk_concat.mp hlook.ok
  have hdot := hlook.not_isDot hx
  refine Trial.Triple.bind _ ((lockHdirCreateWh_spec hlook
    (fun T' m hcp hm => .inl (hm.stands_copiedUp hcp)) isdir hkind hx).mono_err fun _ m h =>
    ⟨h.2, .inl ?_⟩) fun r => Spec.pre fun hr =>
      Spec.exists fun T' => Spec.pre fun ⟨hcp, hdir, hlow⟩ => ?_
  · obtain ⟨T', hcp, hm⟩ := h.1
    exact hm.stands_copiedUp hcp
  obtain ⟨wh, b⟩ := r
  obtain rfl : b = 0 := hr
  have hTp : T' (s ++ [n]) = T (s ++ [n]) := hcp.off _ (concat_not_le s n)
  have hTwh : T' (s ++ [whName n]) = none := by
    rw [hcp.off _ (concat_not_le s _), hlook.whiteout_none hx]
  have hstart : d.dbstart = some 0 ↔ T (s ++ [n]) ≠ none := by
    refine ⟨fun h hT => ?_, hlook.dentry.dbstart_of_upper⟩
    rw [hlook.dentry.dbstart_of_lower hlook.ok hT hx] at h
    cases h
  generalize hT₁ :
    (if wh = true then Function.update T' (s ++ [whName n]) (some (.file [])) else T') =
    T₁
  have hc₁ : ChangeAt s n T' T₁ := by
    rw [← hT₁]
    split_ifs
    · exact ChangeAt.refl.update_whiteout hn (.inr rfl)
    · exact ChangeAt.refl
  have hbelow : ∀ r, T₁ (s ++ [n] ++ r) = T (s ++ [n] ++ r) := by
    intro r
    have hcpr : T' (s ++ [n] ++ r) = T (s ++ [n] ++ r) :=
      hcp.off _ fun hle => concat_not_le s n ((List.prefix_append _ _).trans hle)
    rw [← hT₁, ← hcpr]
    split_ifs
    · exact Function.update_of_ne (below_ne_whName hn s r) _ _
    · rfl
  have hT₁p : T₁ (s ++ [n]) = T (s ++ [n]) := by simpa using hbelow []
  have hwh₁ : wh = true → T₁ (s ++ [whName n]) ≠ none := fun h => by
    rw [← hT₁, if_pos h, Function.update_self]
    exact Option.some_ne_none _
  have hhidden : T₁ (s ++ [whName n]) ≠ none ∨ ¬ Through T' ro.get s ∨
      ro.get (s ++ [n]) = none := by
    cases wh with
    | false => exact .inr (hlow rfl)
    | true => exact .inl (hwh₁ rfl)
  -- between the whiteout and the removal the entry stands beside its whiteout
  have htorn : ∀ m, OnUpper ro fs (Shows T₁) m → wh = true → T (s ++ [n]) ≠ none →
      Torn ro fs (union T ro.get) s n m := fun m hm hw hT => hcp.union ▸
    hm.torn hcp.upper hc₁ hm.tree_closed hlook.ok hdot (by rwa [hT₁p]) (hwh₁ hw)
  have hgone : ∀ m, OnUpper ro fs (Shows T₁) m → T (s ++ [n]) = none →
      Stands ro fs (Function.update (union T ro.get) (s ++ [n]) none) m := fun m hm hT =>
    hm.removed hcp hc₁ hn hdot (by rwa [hT₁p]) hhidden hempty
  have hreach : ∀ m, OnUpper ro fs (Shows T₁) m → Reached ro fs (union T ro.get)
      (Function.update (union T ro.get) (s ++ [n]) none) s n m := by
    intro m hm
    by_cases hT : T (s ++ [n]) = none
    · exact .inr (.inl (hgone m hm hT))
    · cases hw : wh with
      | true => exact .inr (.inr (.inl (htorn m hm hw hT)))
      | false =>
        rw [← hT₁, hw] at hm
        exact .inl (hm.stands_copiedUp hcp)
  refine Trial.Triple.ite (fun h => ?_) fun h => ?_
  · have hT : T (s ++ [n]) ≠ none := hstart.mp h
    have hdone : ∀ m, OnUpper ro fs (Shows fun q => if s ++ [n] <+: q then none else T₁ q) m →
        Stands ro fs (Function.update (union T ro.get) (s ++ [n]) none) m := by
      intro m hm
      refine hm.removed hcp (hc₁.remove hn) hn hdot (if_pos (List.prefix_refl _)) ?_ hempty
      rw [if_neg (ChangeAt.not_prefix_whName hn s (concat_not_le s n) n)]
      exact hhidden
    refine Spec.attempt_bind _ _ (hrm T₁ hT hbelow hreach fun m hm => .inr (.inl (hdone m hm)))
      (fun _ => Trial.Triple.pure hdone) fun e => ?_
    -- the whiteout is taken back
    refine Trial.Triple.ite (fun hw => ?_) fun hw => ?_
    · refine Trial.Triple.bind (fun _ m => Stands ro fs (union T ro.get) m ∧ Faulty fs) ?_
        fun _ => Trial.Triple.throw fun m hm => ⟨hm.2, .inl hm.1⟩
      refine Spec.attempt_bind (fun _ m => Stands ro fs (union T ro.get) m ∧ Faulty fs)
        (fun _ m => OnUpper ro fs (Shows T₁) m ∧ Faulty fs) ?_
        (fun _ => Trial.Triple.pure fun _ h => h) fun e' => Trial.Triple.throw fun m hm =>
          ⟨hm.2, .inr ⟨rfl, hreach m hm.1⟩⟩
      refine ((Spec.lower (L := Shows T') (.unlink _) hreach fun rw rw' hc hK hget => ?_).frame
        (φ := Faulty fs)).mono (fun _ h => h)
        (fun _ m h => ⟨h.1.stands_copiedUp hcp, h.2⟩) (fun _ m h => ⟨h.1.1, h.2⟩) fun _ _ h => h
      have hvis : vis rw.get = T₁ := hK
      rw [Shows, hget]
      refine (vis_update (visible_whName hs hn.1) _).trans ?_
      rw [hvis, ← hT₁, if_pos hw, Function.update_idem, ← hTwh, Function.update_eq_self]
    · refine Trial.Triple.throw fun m hm => ⟨hm.2, .inl ?_⟩
      have hm' := hm.1
      rw [← hT₁, if_neg hw] at hm'
      exact hm'.stands_copiedUp hcp
  · have hT : T (s ++ [n]) = none := not_not.mp (mt hstart.mpr h)
    exact Trial.Triple.pure fun m hm => hgone m hm hT

/-- **An entry is unlinked**, or nothing has changed. -/
theorem aufsUnlink_spec (hlook : LookedUp ro.get T s n parent d) {x : Node}
    (hx : union T ro.get (s ++ [n]) = some x) (hxdir : x ≠ .dir) :
    Spec O (Reached ro fs (union T ro.get) (Function.update (union T ro.get) (s ++ [n]) none) s n)
      (OnUpper ro fs (Shows T)) (aufsUnlink s n parent d)
      (fun _ => Stands ro fs (Function.update (union T ro.get) (s ++ [n]) none))
      (Failed ro fs (union T ro.get) (Function.update (union T ro.get) (s ++ [n]) none) s n) := by
  rw [aufsUnlink, hlook.dentry.node hlook.ok, hx]
  split
  · contradiction
  · rename_i h
    exact absurd (Option.some.inj h) hxdir
  · refine remove_spec hlook false (by simp [hx, hxdir]) (by simp [hx])
      (fun m => (union_closed hlook.upper.closed).eq_none (by simp [hx, hxdir]) (by simp))
      (fun b => lower b (.unlink (s ++ [n]))) fun T₁ hT hbelow hreach _ => ?_
    obtain ⟨y, hy⟩ := Option.ne_none_iff_exists'.mp hT
    rw [union_of_upper hlook.ok hy] at hx
    obtain rfl := Option.some.inj hx
    have hT₁ : T₁ (s ++ [n]) = some y := by simpa [hy] using hbelow []
    have hvis := visible_of_pathOk hlook.ok
    refine (Spec.lower (.unlink _) hreach fun rw rw' hc hK hget => ?_).mono_err fun _ m h =>
      ⟨h.1, h.2 fun rw hc hK => ?_⟩
    · -- nothing lies below the entry
      rw [Shows, hget]
      refine (vis_update hvis _).trans ?_
      rw [show vis rw.get = T₁ from hK]
      funext q
      by_cases hq : s ++ [n] <+: q
      · obtain ⟨r, rfl⟩ := hq
        rw [if_pos (List.prefix_append _ _)]
        by_cases hr : r = []
        · rw [hr, List.append_nil, Function.update_self]
        · rw [Function.update_of_ne (by simpa using hr), hbelow r,
            hlook.upper.closed.eq_none (by simp [hy, hxdir]) hr]
      · rw [if_neg hq, Function.update_of_ne (by rintro rfl; exact hq (List.prefix_refl _))]
    · refine ⟨?_, ?_⟩ <;> rw [Shows.get hK hvis, hT₁]
      · simp
      · simpa using hxdir

/-- What lies below a temporary name may go. -/
theorem unlinkHidden_spec {J : Mount → Prop} (hJ : ∀ m, OnUpper ro fs (Shows T) m → J m) {p : Path}
    (hp : ¬ Visible p) (op : LowerOp) (hop : ∀ U : Tree, op.effect U = Function.update U p none) :
    Spec O J (OnUpper ro fs (Shows T)) (lower 0 op) (fun _ => OnUpper ro fs (Shows T))
      fun _ => OnUpper ro fs (Shows T) := by
  refine (Spec.lower op hJ fun rw rw' hc hK hget => ?_).mono_err fun _ _ h => h.1
  rw [Shows, hget, hop, vis_update_hidden hp]
  exact hK

theorem auWhtmpRmdir_spec {J : Mount → Prop}
    (hJ : ∀ m, OnUpper ro fs (Shows T) m → J m) {w : String}
    (hw : TmpName w) (whlist : List (String × ℕ)) :
    Spec O J (OnUpper ro fs (Shows T)) (auWhtmpRmdir 0 (s ++ [w]) whlist)
      (fun _ => OnUpper ro fs (Shows T)) fun _ => OnUpper ro fs (Shows T) := by
  refine Trial.Triple.bind (fun _ => OnUpper ro fs (Shows T)) ?_ fun _ =>
    unlinkHidden_spec hJ (hw.not_visible s) (.rmdir _) fun _ => rfl
  refine Trial.Triple.forM fun x _ => ?_
  refine Trial.Triple.bind (fun _ => OnUpper ro fs (Shows T)) ((lkupOne_spec hJ).mono (fun _ h => h)
    (fun _ _ h => h.mono fun _ h => h.1) (fun _ _ h => h.1) fun _ _ h => h) fun y => ?_
  refine Trial.Triple.ite (fun _ => ?_) fun _ => Trial.Triple.pure fun _ h => h
  exact unlinkHidden_spec hJ (not_visible_append hw.1 (by simp)) (.unlink _) fun _ => rfl

/-- A directory gets a temporary name; how far it is then removed does not show. -/
theorem renwhAndRmdir_spec {J : Mount → Prop} (hJ : ∀ m, OnUpper ro fs (Shows T) m → J m)
    (hJ' : ∀ m, OnUpper ro fs (Shows fun q => if s ++ [n] <+: q then none else T q) m → J m)
    (hp : PathOk (s ++ [n])) (hT : T (s ++ [n]) ≠ none) (whlist : List (String × ℕ)) :
    Spec O J (OnUpper ro fs (Shows T)) (renwhAndRmdir s n 0 whlist)
      (fun _ => OnUpper ro fs (Shows fun q => if s ++ [n] <+: q then none else T q))
      fun _ m => OnUpper ro fs (Shows T) m ∧ Faulty fs := by
  obtain ⟨hs, hn⟩ := pathOk_concat.mp hp
  refine Trial.Triple.bind (fun w m => TmpName w ∧
    OnUpper ro fs (Shows fun q => if s ++ [n] <+: q then none else T q) m) ?_ fun w =>
      Spec.pre fun hw => ?_
  · refine Trial.Triple.bind _ (auWhtmpLkup_spec hJ hn) fun w => Spec.pre fun hw => ?_
    have hJw : ∀ m, OnUpper ro fs (Tmp T (s ++ [w]) none) m → J m := fun m hm =>
      hJ m (hm.mono fun _ h => h.shows)
    have hne : n ≠ w := by
      rintro rfl
      have hwh := hw.1
      rw [hn.1] at hwh
      cases hwh
    have hprefix : ∀ {a b : String}, a ≠ b → ¬ s ++ [a] <+: s ++ [b] := fun hab hle =>
      hab (by simpa using hle)
    refine Trial.Triple.bind _ ((Spec.lower (.rename _ _) hJw fun rw rw' hc hK hget => ?_).mono_err
      fun _ m h => ⟨h.1.mono fun _ h => h.shows, h.2 fun rw hc hK => ?_⟩)
      fun _ => Trial.Triple.pure fun m hm => ⟨hw, hm⟩
    · rw [Shows, hget, vis_rename_out hw.1 hw.2, hK.1]
    · have hdir : rw.get (s ++ [n]) ≠ none := by rwa [hK.shows.get (visible_of_pathOk hp)]
      refine ⟨hdir, hprefix hne, hprefix hne.symm, ?_, .inl hK.2.1⟩
      rw [List.dropLast_concat]
      exact hc.parent s n hdir
  · refine Trial.Triple.ite (fun _ => ?_) fun _ => Trial.Triple.pure fun _ h => h
    exact Spec.attempt_bind _ _ (auWhtmpRmdir_spec hJ' hw whlist)
      (fun _ => Trial.Triple.pure fun _ h => h) fun _ => Trial.Triple.pure fun _ h => h

/-! ## Empty directories -/

/-- A name that is not one of the two dots of a listing. -/
def Real (a : String) : Prop := a ≠ "." ∧ a ≠ ".."

theorem testEmptyCb_cases (i : ℕ) (wl : List (String × ℕ)) (x : String × Kind) :
    (testEmptyCb i wl x = .error .enotempty ∧ Real x.1 ∧ isOrdinary x.1 = true ∧
        x.1 ∉ wl.map Prod.fst) ∨
      ∃ wl', testEmptyCb i wl x = .ok wl' ∧
        (Real x.1 → isOrdinary x.1 = true → x.1 ∈ wl.map Prod.fst) ∧
        ∀ a, a ∈ wl'.map Prod.fst ↔
          a ∈ wl.map Prod.fst ∨ Real x.1 ∧ isOrdinary x.1 = false ∧ stripWh x.1 = a := by
  unfold testEmptyCb Real
  split_ifs with hdot hord hmem hstrip
  · exact .inr ⟨wl, rfl, by tauto, by tauto⟩
  · exact .inr ⟨wl, rfl, fun _ _ => hmem, by simp [hord]⟩
  · exact .inl ⟨rfl, not_or.mp hdot, hord, hmem⟩
  · refine .inr ⟨wl, rfl, by simp [hord], fun a => ⟨.inl, ?_⟩⟩
    rintro (h | ⟨-, -, rfl⟩)
    · exact h
    · exact hstrip
  · refine .inr ⟨_, rfl, by simp [hord], fun a => ?_⟩
    have hnot := not_or.mp hdot
    have hord' : isOrdinary x.1 = false := by simpa using hord
    simp only [List.map_append, List.map_cons, List.map_nil, List.mem_append, List.mem_singleton,
      hord', ne_eq, hnot.1, hnot.2, not_false_eq_true, true_and, and_true, eq_comm (a := a)]

/-- A name with no whiteout stops the test, and the whiteouts add up. -/
theorem testEmptyCb_foldlM (i : ℕ) (xs : List (String × Kind)) (wl : List (String × ℕ)) :
    match xs.foldlM (testEmptyCb i) wl with
    | .error e => e = .enotempty ∧ ∃ a ∈ xs.map Prod.fst, Real a ∧ isOrdinary a = true ∧
        a ∉ wl.map Prod.fst
    | .ok wl' => (∀ a ∈ xs.map Prod.fst, Real a → isOrdinary a = true → a ∈ wl'.map Prod.fst) ∧
        ∀ a, a ∈ wl'.map Prod.fst ↔ a ∈ wl.map Prod.fst ∨ ∃ b ∈ xs.map Prod.fst,
          Real b ∧ isOrdinary b = false ∧ stripWh b = a := by
  induction xs generalizing wl with
  | nil => simp [pure, Except.pure]
  | cons x xs ih =>
    rw [List.foldlM_cons]
    rcases testEmptyCb_cases i wl x with ⟨herr, hreal, hord, hnot⟩ | ⟨wl₁, hok, hord, hmem⟩
    · rw [herr]
      exact ⟨rfl, x.1, by simp, hreal, hord, hnot⟩
    · rw [hok]
      have ih₁ := ih wl₁
      simp only [bind, Except.bind]
      cases hrest : xs.foldlM (testEmptyCb i) wl₁ with
      | error e =>
        rw [hrest] at ih₁
        obtain ⟨he, a, ha, hreal, hord', hnot⟩ := ih₁
        exact ⟨he, a, by simp only [List.map_cons, List.mem_cons, ha, or_true], hreal, hord',
          fun h => hnot ((hmem a).mpr (.inl h))⟩
      | ok wl₂ =>
        rw [hrest] at ih₁
        obtain ⟨hall, hiff⟩ := ih₁
        refine ⟨fun a ha hreal hord' => ?_, fun a => ?_⟩
        · rcases List.mem_cons.mp ha with rfl | ha
          · exact (hiff _).mpr (.inl ((hmem _).mpr (.inl (hord hreal hord'))))
          · exact hall a ha hreal hord'
        · rw [hiff, hmem]
          simp only [List.map_cons, List.mem_cons, exists_eq_or_imp, or_assoc]

end Operations

section Empty

variable {rw ro : Files} {p : Path}

/-- The test of a directory in its branches. -/
def testDirs (p : Path) (dirs : List (ℕ × Branch)) (wl : List (String × ℕ)) :
    Except Errno (List (String × ℕ)) :=
  dirs.foldlM (fun wl x => (hReaddir x.2.files p).foldlM (testEmptyCb x.1) wl) wl

theorem real_of_not_isDot {a : String} (h : ¬ isDot a) : Real a :=
  ⟨fun h' => h (.inr (.inl h')), fun h' => h (.inr (.inr h'))⟩

/-- The names that the writable branch lists are names of the union. -/
theorem nameOk_of_ordinary (hu : Upper rw.get) (hp : PathOk p) {a : String}
    (ha : rw.get (p ++ [a]) ≠ none) (hord : isOrdinary a = true) : NameOk a := by
  have hpfx : hasWhPfx a = false := by
    by_contra hpfx
    obtain ⟨b, rfl⟩ := exists_whName (by simpa using hpfx)
    by_cases hb : b = ""
    · exact ha (hu.dots p b hp (.inl hb)).2
    · rw [isOrdinary_whName hb] at hord
      cases hord
  exact ⟨hpfx, hu.length p a hp hpfx ha⟩

/-- The first branch: every name stops the test, and what is collected are the whiteouts. -/
theorem testDirs_upper (hu : Upper rw.get) (hp : PathOk p) :
    match (hReaddir rw p).foldlM (testEmptyCb 0) [] with
    | .error e => e = .enotempty ∧ ∃ m, NameOk m ∧ rw.get (p ++ [m]) ≠ none
    | .ok wl => (∀ m, NameOk m → rw.get (p ++ [m]) = none) ∧ ∀ m, NameOk m → ¬ isDot m →
        (m ∈ wl.map Prod.fst ↔ rw.get (p ++ [whName m]) ≠ none) := by
  have h := testEmptyCb_foldlM 0 (hReaddir rw p) []
  have hmem : ∀ {a}, Real a → (a ∈ (hReaddir rw p).map Prod.fst ↔ rw.get (p ++ [a]) ≠ none) :=
    fun hreal => by rw [mem_hReaddir hreal.1 hreal.2, Option.isSome_iff_ne_none]
  cases hfold : (hReaddir rw p).foldlM (testEmptyCb 0) [] with
  | error e =>
    rw [hfold] at h
    obtain ⟨he, a, ha, hreal, hord, -⟩ := h
    have ha' := (hmem hreal).mp ha
    exact ⟨he, a, nameOk_of_ordinary hu hp ha' hord, ha'⟩
  | ok wl =>
    rw [hfold] at h
    obtain ⟨hall, hiff⟩ := h
    -- what is collected for a name comes from its whiteout
    have hwh : ∀ {m}, m ∈ wl.map Prod.fst → rw.get (p ++ [whName m]) ≠ none := by
      intro m hm
      rcases (hiff m).mp hm with hm | ⟨b, hb, hreal, hord, rfl⟩
      · cases hm
      · obtain ⟨c, rfl⟩ := exists_whName (hasWhPfx_of_not_isOrdinary hord)
        rw [stripWh_whName]
        exact (hmem hreal).mp hb
    refine ⟨fun m hm => ?_, fun m hm hdot => ⟨hwh, fun hne => ?_⟩⟩
    · by_contra hne
      by_cases hdot : isDot m
      · exact hne (hu.dots p m hp hdot).1
      · have hreal := real_of_not_isDot hdot
        have hin := hall m ((hmem hreal).mpr hne) hreal (isOrdinary_of_not_hasWhPfx hm.1)
        exact hne (hu.apart p m hp hm.1 (Set.notMem_empty _) (hwh hin))
    · have hreal : Real (whName m) :=
        ⟨(ne_whName (by decide) m).symm, (ne_whName (by decide) m).symm⟩
      exact (hiff m).mpr (.inr ⟨whName m, (hmem hreal).mpr hne, hreal,
        isOrdinary_whName fun h => hdot (.inl h), stripWh_whName m⟩)

/-- The second branch: a name stops the test unless it is hidden. -/
theorem testDirs_lower (hl : LowerTree ro.get) (i : ℕ) (wl : List (String × ℕ)) :
    match (hReaddir ro p).foldlM (testEmptyCb i) wl with
    | .error e => e = .enotempty ∧ ∃ m, ¬ isDot m ∧ ro.get (p ++ [m]) ≠ none ∧ m ∉ wl.map Prod.fst
    | .ok _ => ∀ m, ro.get (p ++ [m]) ≠ none → m ∈ wl.map Prod.fst := by
  have h := testEmptyCb_foldlM i (hReaddir ro p) wl
  have hmem : ∀ {a}, Real a → (a ∈ (hReaddir ro p).map Prod.fst ↔ ro.get (p ++ [a]) ≠ none) :=
    fun hreal => by rw [mem_hReaddir hreal.1 hreal.2, Option.isSome_iff_ne_none]
  have hname : ∀ {a}, ro.get (p ++ [a]) ≠ none → NameOk a ∧ ¬ isDot a := fun ha =>
    ⟨(hl.names _ ha).1 _ (by simp), (hl.names _ ha).2 _ (by simp)⟩
  cases hfold : (hReaddir ro p).foldlM (testEmptyCb i) wl with
  | error e =>
    rw [hfold] at h
    obtain ⟨he, a, ha, hreal, -, hnot⟩ := h
    have ha' := (hmem hreal).mp ha
    exact ⟨he, a, (hname ha').2, ha', hnot⟩
  | ok wl' =>
    rw [hfold] at h
    obtain ⟨hall, hiff⟩ := h
    intro m hm
    obtain ⟨hok, hdot⟩ := hname hm
    have hreal := real_of_not_isDot hdot
    have hin := hall m ((hmem hreal).mpr hm) hreal (isOrdinary_of_not_hasWhPfx hok.1)
    rcases (hiff m).mp hin with hin | ⟨b, hb, hreal', hord, -⟩
    · exact hin
    · -- the read-only branch has no whiteouts
      have hpfx := hasWhPfx_of_not_isOrdinary hord
      rw [(hname ((hmem hreal').mp hb)).1.1] at hpfx
      cases hpfx

/-- **The test of a directory tells whether it is empty in the union.** -/
theorem testDirs_spec {d : Dentry} (hu : Upper rw.get) (hl : LowerTree ro.get)
    (hd : d.At rw.get ro.get p) (hdir : union rw.get ro.get p = some .dir) :
    match testDirs p (d.dirs (mountBranches rw ro)) [] with
    | .error e => e = .enotempty ∧ ∃ m, union rw.get ro.get (p ++ [m]) ≠ none
    | .ok _ => ∀ m, union rw.get ro.get (p ++ [m]) = none := by
  have hp := pathOk_of_union (p := p) (by rw [hdir]; exact Option.some_ne_none _)
  have hok : ∀ {m}, NameOk m → PathOk (p ++ [m]) := fun hm => pathOk_concat.mpr ⟨hp, hm⟩
  -- the read-only branch after the writable one
  have hlower : Through rw.get ro.get p → ∀ wl : List (String × ℕ),
      (∀ m, NameOk m → rw.get (p ++ [m]) = none) →
      (∀ m, NameOk m → ¬ isDot m → (m ∈ wl.map Prod.fst ↔ rw.get (p ++ [whName m]) ≠ none)) →
      match (hReaddir ro p).foldlM (testEmptyCb 1) wl with
      | .error e => e = .enotempty ∧ ∃ m, union rw.get ro.get (p ++ [m]) ≠ none
      | .ok _ => ∀ m, union rw.get ro.get (p ++ [m]) = none := by
    intro ht wl hnone hwl
    have h := testDirs_lower hl 1 wl (p := p)
    cases hfold : (hReaddir ro p).foldlM (testEmptyCb 1) wl with
    | error e =>
      rw [hfold] at h
      obtain ⟨he, m, hdot, hro, hnot⟩ := h
      have hm := (hl.names _ hro).1 m (by simp)
      have hwh := not_not.mp (mt (hwl m hm hdot).mpr hnot)
      refine ⟨he, m, ?_⟩
      rwa [union_of_below (hok hm) (hnone m hm) (below_concat.mpr ⟨ht, hwh⟩)]
    | ok wl' =>
      rw [hfold] at h
      intro m
      by_cases hm : NameOk m
      · by_cases hb : Below rw.get ro.get (p ++ [m])
        · rw [union_of_below (hok hm) (hnone m hm) hb]
          by_contra hro
          have hdot := (hl.names _ hro).2 m (by simp)
          exact (hwl m hm hdot).mp (h m hro) (below_concat.mp hb).2
        · exact union_of_not_below (hnone m hm) hb
      · exact if_neg fun h => hm (pathOk_concat.mp h).2
  rw [hd.dirs hu (Set.notMem_empty _) hl.closed hdir, testDirs]
  by_cases hx : rw.get p = some .dir
  · have h := testDirs_upper hu hp
    rw [if_pos hx, List.singleton_append, List.foldlM_cons]
    cases hfold : (hReaddir rw p).foldlM (testEmptyCb 0) [] with
    | error e =>
      rw [hfold] at h
      obtain ⟨he, m, hm, hne⟩ := h
      obtain ⟨x, hx⟩ := Option.ne_none_iff_exists'.mp hne
      exact ⟨he, m, by rw [union_of_upper (hok hm) hx]; exact Option.some_ne_none _⟩
    | ok wl =>
      rw [hfold] at h
      obtain ⟨hnone, hwl⟩ := h
      by_cases ht : Through rw.get ro.get p
      · have hlow := hlower ht wl hnone hwl
        simp only [if_pos ht, List.foldlM_cons, List.foldlM_nil, bind, Except.bind]
        cases hfold' : (hReaddir ro p).foldlM (testEmptyCb 1) wl with
        | error e =>
          rw [hfold'] at hlow
          exact hlow
        | ok wl' =>
          rw [hfold'] at hlow
          exact hlow
      · simp only [if_neg ht, List.foldlM_nil, bind, Except.bind]
        intro m
        by_cases hm : NameOk m
        · exact union_of_not_below (hnone m hm) fun hb => ht (below_concat.mp hb).1
        · exact if_neg fun h => hm (pathOk_concat.mp h).2
  · have ht := ((upper_or_through hdir).resolve_left hx).2
    have hnone : ∀ m, rw.get (p ++ [m]) = none := fun m => hu.closed.eq_none hx (by simp)
    have hlow := hlower ht [] (fun m _ => hnone m) (by simp [hnone])
    rw [if_neg hx, if_pos ht, List.nil_append, List.foldlM_cons]
    simp only [List.foldlM_nil, bind, Except.bind]
    cases hfold' : (hReaddir ro p).foldlM (testEmptyCb 1) [] with
    | error e =>
      rw [hfold'] at hlow
      exact hlow
    | ok wl' =>
      rw [hfold'] at hlow
      exact hlow

theorem auTestEmpty_foldlM {fs : List (Option Errno)} {J : Mount → Prop} {K : Files → Prop}
    (hJ : ∀ m, OnUpper ro fs K m → J m) (dirs : List (ℕ × Branch)) (wl : List (String × ℕ)) :
    Spec O J (OnUpper ro fs K)
      (dirs.foldlM (fun whlist x => do
        check
        known ((hReaddir x.2.files p).foldlM (testEmptyCb x.1) whlist)) wl)
      (fun r m => testDirs p dirs wl = .ok r ∧ OnUpper ro fs K m)
      fun e m => OnUpper ro fs K m ∧ (Faulty fs ∨ testDirs p dirs wl = .error e) := by
  induction dirs generalizing wl with
  | nil => exact Trial.Triple.pure fun m hm => ⟨rfl, hm⟩
  | cons x dirs ih =>
    have hcons : testDirs p (x :: dirs) wl =
        ((hReaddir x.2.files p).foldlM (testEmptyCb x.1) wl).bind fun wl' =>
          testDirs p dirs wl' := by
      rw [testDirs, List.foldlM_cons]
      rfl
    rw [List.foldlM_cons]
    refine Trial.Triple.bind
      (fun r m => (hReaddir x.2.files p).foldlM (testEmptyCb x.1) wl = .ok r ∧
      OnUpper ro fs K m) ?_ fun wl' => Spec.pre fun hok => ?_
    · refine Trial.Triple.bind _ ((Spec.check hJ).mono_err fun _ _ h => ⟨h.1, .inl h.2⟩) fun _ => ?_
      rw [hcons]
      cases (hReaddir x.2.files p).foldlM (testEmptyCb x.1) wl with
      | error e => exact Trial.Triple.throw fun m hm => ⟨hm, .inr rfl⟩
      | ok wl' => exact Trial.Triple.pure fun m hm => ⟨rfl, hm⟩
    · rw [hcons, hok]
      exact ih wl'

/-- The test of a directory stops where something shows in it. -/
theorem auTestEmpty_spec {fs : List (Option Errno)} {J : Mount → Prop} {T : Tree} {s : Path}
    {n : String} {d parent : Dentry} (hlook : LookedUp ro.get T s n parent d)
    (hx : union T ro.get (s ++ [n]) = some .dir) (hJ : ∀ m, OnUpper ro fs (Shows T) m → J m) :
    Spec O J (OnUpper ro fs (Shows T)) (auTestEmpty (s ++ [n]) d)
      (fun _ m => (∀ a, union T ro.get (s ++ [n] ++ [a]) = none) ∧ OnUpper ro fs (Shows T) m)
      fun e m => OnUpper ro fs (Shows T) m ∧
        (Faulty fs ∨ e = .enotempty ∧ ∃ a, union T ro.get (s ++ [n] ++ [a]) ≠ none) := by
  refine Spec.read hJ fun rw' hc hrw => ?_
  subst hrw
  have hdirs := testDirs_spec (upper_vis.mp ⟨hlook.upper, hc⟩) hlook.lower
    ((at_vis hlook.ok).mp hlook.dentry) (union_vis (u := rw'.get) ▸ hx)
  refine (auTestEmpty_foldlM (fun m hm => hJ m (hm.mono ?_)) _ _).mono (fun _ h => h)
    (fun wl m h => ?_) (fun e m h => ?_) fun _ _ h => h
  · rintro rw rfl
    rfl
  · rw [h.1] at hdirs
    rw [union_vis]
    exact ⟨hdirs, h.2.mono (by rintro rw rfl; rfl)⟩
  · refine ⟨h.1.mono (by rintro rw rfl; rfl), h.2.imp_right fun he => ?_⟩
    rw [he] at hdirs
    rw [union_vis]
    exact hdirs

/-- **A directory in which nothing shows is removed**, or nothing has changed. -/
theorem aufsRmdir_spec {fs : List (Option Errno)} {T : Tree} {s : Path} {n : String}
    {d parent : Dentry} (hlook : LookedUp ro.get T s n parent d)
    (hx : union T ro.get (s ++ [n]) = some .dir)
    (hempty : ∀ a, union T ro.get (s ++ [n] ++ [a]) = none) :
    Spec O (Reached ro fs (union T ro.get) (Function.update (union T ro.get) (s ++ [n]) none) s n)
      (OnUpper ro fs (Shows T)) (aufsRmdir s n parent d)
      (fun _ => Stands ro fs (Function.update (union T ro.get) (s ++ [n]) none))
      (Failed ro fs (union T ro.get) (Function.update (union T ro.get) (s ++ [n]) none) s n) := by
  have hstands : ∀ m, OnUpper ro fs (Shows T) m → Stands ro fs (union T ro.get) m := fun m hm =>
    hm.stands hlook.upper rfl
  rw [aufsRmdir, hlook.dentry.node hlook.ok, hx]
  refine Trial.Triple.bind _ ((auTestEmpty_spec hlook hx fun m hm => .inl (hstands m hm)).mono
    (fun _ h => h) (fun _ _ h => h.2) (fun e m h => ?_) fun _ _ h => h) fun whlist => ?_
  · rcases h.2 with hf | ⟨-, a, ha⟩
    · exact ⟨hf, .inl (hstands m h.1)⟩
    · exact absurd (hempty a) ha
  · refine remove_spec hlook true (by simp [hx]) (by simp [hx]) hempty
      (fun b => renwhAndRmdir s n b whlist) fun T₁ hT hbelow hreach hreach' => ?_
    refine renwhAndRmdir_spec hreach hreach' hlook.ok ?_ whlist
    rw [show T₁ (s ++ [n]) = T (s ++ [n]) by simpa using hbelow []]
    exact hT

end Empty

end Meta3dr.Aufs
