import Meta3dr.Aufs.Removal

/-!
# Addition and writing of an entry

A new entry is made in the writable branch, and then its whiteout goes; a directory that takes the
place of a whiteout is made opaque first. A file of the read-only branch is copied up before it is
written. A step that fails takes the earlier ones back.

## Main results

* `auWrDir_spec`, `lockHdirLkupWh_spec`: the branch of a new entry, and its whiteout
* `addSimple_spec`, `aufsMkdir_spec`: the entry is there, or nothing has changed
* `aufsWrite_spec`: the file has the new contents, or nothing has changed
-/

namespace Meta3dr.Aufs

open Shell Program

variable {O : Prop} {ro : Files} {fs : List (Option Errno)} {J : Mount → Prop} {T T' T₂ : Tree} {s : Path}
  {n : String} {d parent : Dentry} {m : Mount}

/-! ## The branch -/

section Branch

variable (hlook : LookedUp ro.get T s n parent d)
  (hJ : ∀ T' m, CopiedUp ro.get s T T' → OnUpper ro fs (Shows T') m → J m)
include hlook

/-- A name that does not show has no entry in the writable branch. -/
theorem LookedUp.upper_none (hx : union T ro.get (s ++ [n]) = none) : T (s ++ [n]) = none := by
  by_contra hT
  obtain ⟨x, hT⟩ := Option.ne_none_iff_exists'.mp hT
  rw [union_of_upper hlook.ok hT] at hx
  cases hx

theorem LookedUp.hDptr_parent : parent.hDptr 0 = true ↔ T s = some .dir := by
  have hs := (pathOk_concat.mp hlook.ok).1
  constructor
  · intro h
    rcases upper_or_through hlook.dir with hx | ⟨hx, -⟩
    · exact hx
    · rw [Dentry.hDptr, hlook.parent.lower_of_none hs hx hlook.dir] at h
      simp at h
  · intro hx
    rw [Dentry.hDptr, hlook.parent.lower, hx]
    simp

include hJ

/-- The parent is copied up where the branch has not it. -/
theorem cpupParent_spec :
    Spec O J (OnUpper ro fs (Shows T)) (if !parent.hDptr 0 then auCpupDirs 0 s else pure ())
      (fun _ m => ∃ T', (CopiedUp ro.get s T T' ∧ T' s = some .dir) ∧ OnUpper ro fs (Shows T') m)
      fun _ m => (∃ T', CopiedUp ro.get s T T' ∧ OnUpper ro fs (Shows T') m) ∧ Faulty fs := by
  refine Trial.Triple.ite (fun _ => auCpupDirs_spec hlook.upper hlook.lower hlook.dir hJ)
    fun h => ?_
  have hdir := hlook.hDptr_parent.mp (by simpa using h)
  exact Trial.Triple.pure fun m hm => ⟨T, ⟨CopiedUp.refl hlook.upper, hdir⟩, hm⟩

/-- **The branch of a new entry is the writable one**, which has the parent then. -/
theorem auWrDir_spec (hx : union T ro.get (s ++ [n]) = none) :
    Spec O J (OnUpper ro fs (Shows T)) (auWrDir s n parent d)
      (fun b m => b = 0 ∧ ∃ T', (CopiedUp ro.get s T T' ∧ T' s = some .dir) ∧
        OnUpper ro fs (Shows T') m)
      fun _ m => (∃ T', CopiedUp ro.get s T T' ∧ OnUpper ro fs (Shows T') m) ∧ Faulty fs := by
  have hJT : ∀ m, OnUpper ro fs (Shows T) m → J m := fun m => hJ T m (CopiedUp.refl hlook.upper)
  have hpolicy := auWbrCreateTdp_spec (O := O) hJT hlook.upper hlook.lower.closed hlook.dir hlook.parent
    hlook.dentry hlook.ok
  refine Spec.read hJT fun rw hc hrw => ?_
  subst hrw
  have hback : ∀ m, OnUpper ro fs (· = rw) m → OnUpper ro fs (Shows (vis rw.get)) m := fun m hm =>
    hm.mono (by rintro rw rfl; rfl)
  -- both policies give the writable branch
  refine Spec.attempt_bind _ (fun _ _ => False) (hpolicy.mono_pre hback)
    (fun b => Spec.pre fun hb => ?_) fun e => fun m hm => hm.elim
  subst hb
  refine Trial.Triple.bind (fun b m => b = 0 ∧ OnUpper ro fs (Shows (vis rw.get)) m) ?_ fun b =>
    Spec.pre fun hb => ?_
  · exact Trial.Triple.pure fun m hm => ⟨rfl, hm⟩
  · subst hb
    have hstart := hlook.dentry.dbstart_of_none hlook.ok hx
    refine Trial.Triple.ite (fun hne => ?_) fun heq => ?_
    · -- the negative entry was in the other branch: the parent is copied up
      refine Trial.Triple.bind (fun _ m => ∃ T', (CopiedUp ro.get s (vis rw.get) T' ∧
        T' s = some .dir) ∧ OnUpper ro fs (Shows T') m) ?_ fun _ =>
          Trial.Triple.pure fun m hm => ⟨rfl, hm⟩
      have hneg : Spec O J (fun m => ∃ T', (CopiedUp ro.get s (vis rw.get) T' ∧ T' s = some .dir) ∧
          OnUpper ro fs (Shows T') m) (auLkupNeg 0 s n)
          (fun _ m => ∃ T', (CopiedUp ro.get s (vis rw.get) T' ∧ T' s = some .dir) ∧
            OnUpper ro fs (Shows T') m)
          fun _ m => (∃ T', CopiedUp ro.get s (vis rw.get) T' ∧ OnUpper ro fs (Shows T') m) ∧
            Faulty fs := by
        refine Spec.exists fun T' => Spec.pre fun ⟨hcp, hdir⟩ => ?_
        refine (auLkupNeg_spec (fun m => hJ T' m hcp) fun rw hK => ?_).mono (fun _ h => h)
          (fun _ m h => ⟨T', ⟨hcp, hdir⟩, h⟩) (fun _ m h => ⟨⟨T', hcp, h.1⟩, h.2⟩) fun _ _ h => h
        rw [Shows.get hK (visible_of_pathOk hlook.ok), hcp.off _ (concat_not_le s n),
          hlook.upper_none hx]
      have hcpup := cpupParent_spec (O := O) hlook hJ
      refine Trial.Triple.ite (fun hp => ?_) fun hp => ?_
      · rw [if_pos hp] at hcpup
        exact Trial.Triple.bind _ hcpup fun _ => hneg
      · have hdir := hlook.hDptr_parent.mp (by simpa using hp)
        exact hneg.mono_pre fun m hm => ⟨_, ⟨CopiedUp.refl hlook.upper, hdir⟩, hm⟩
    · have hdir : vis rw.get s = some .dir := by
        by_contra hdir
        rw [hstart, if_neg hdir] at heq
        simp at heq
      exact Trial.Triple.pure fun m hm => ⟨rfl, _, ⟨CopiedUp.refl hlook.upper, hdir⟩, hm⟩

/-- The whiteout of a new entry is looked up. -/
theorem lockHdirLkupWh_spec (hx : union T ro.get (s ++ [n]) = none) :
    Spec O J (OnUpper ro fs (Shows T)) (lockHdirLkupWh s n parent d)
      (fun r m => (r.2 = 0 ∧ r.1 = (T (s ++ [whName n])).isSome) ∧ ∃ T',
        (CopiedUp ro.get s T T' ∧ T' s = some .dir) ∧ OnUpper ro fs (Shows T') m)
      fun _ m => (∃ T', CopiedUp ro.get s T T' ∧ OnUpper ro fs (Shows T') m) ∧ Faulty fs := by
  refine Trial.Triple.bind _ (auWrDir_spec hlook hJ hx) fun b => Spec.pre fun hb =>
    Spec.exists fun T' => Spec.pre fun ⟨hcp, hdir⟩ => ?_
  subst hb
  have hJT : ∀ m, OnUpper ro fs (Shows T') m → J m := fun m => hJ T' m hcp
  have hfail : ∀ (e : Errno) m, OnUpper ro fs (Shows T') m ∧ Faulty fs →
      (∃ T', CopiedUp ro.get s T T' ∧ OnUpper ro fs (Shows T') m) ∧ Faulty fs := fun _ _ h =>
    ⟨⟨T', hcp, h.1⟩, h.2⟩
  have hbwh := hlook.dentry.bwh s n rfl
  refine Trial.Triple.bind _ ((Spec.check hJT).mono_err hfail) fun _ => ?_
  have hlen : ¬ maxNameLen < n.utf8ByteSize := Nat.not_lt.mpr (pathOk_concat.mp hlook.ok).2.2
  refine Trial.Triple.ite (fun h => absurd h hlen) fun _ => ?_
  refine Trial.Triple.ite (fun hw => ?_) fun hw => ?_
  · refine Trial.Triple.bind _ ((lkupOne_spec hJT).mono (fun _ h => h)
      (fun _ _ h => h.mono fun _ h => h.1) hfail fun _ _ h => h) fun _ => ?_
    refine Trial.Triple.pure fun m hm => ⟨⟨rfl, ?_⟩, T', ⟨hcp, hdir⟩, hm⟩
    cases hwh : (T (s ++ [whName n])).isSome with
    | true => rfl
    | false => simp [hbwh, hwh] at hw
  · refine Trial.Triple.pure fun m hm => ⟨⟨rfl, ?_⟩, T', ⟨hcp, hdir⟩, hm⟩
    cases hwh : (T (s ++ [whName n])).isSome with
    | true => simp [hbwh, hwh] at hw
    | false => rfl

end Branch

/-! ## States of an addition -/

section States

variable {V' : Tree} (hcp : CopiedUp ro.get s T T') (hp : PathOk (s ++ [n])) (hdot : ¬ isDot n)
include hcp hp hdot

/-- Once a step has failed, any change at the entry is one that the operation may stop in. -/
theorem OnUpper.reached (h : OnUpper ro fs (Shows T₂) m) (hc : ChangeAt s n T' T₂)
    (hf : Faulty fs) : Reached ro fs (union T ro.get) V' s n m := by
  obtain ⟨-, hn⟩ := pathOk_concat.mp hp
  by_cases hboth : T₂ (s ++ [n]) ≠ none ∧ T₂ (s ++ [whName n]) ≠ none
  · exact .inr (.inr (.inl (hcp.union ▸
      h.torn hcp.upper hc h.tree_closed hp hdot hboth.1 hboth.2)))
  · have hu : Upper T₂ := hc.upper hcp.upper hn hdot h.tree_closed fun _ hwh => by
      by_contra hentry
      exact hboth ⟨hentry, hwh⟩
    obtain ⟨rw, hbr, hclosed, hfs, rfl⟩ := h
    refine .inr (.inr (.inr ⟨hf, rw, hbr, hclosed, hfs, upper_vis.mp ⟨hu, hclosed⟩,
      fun q hq => ?_⟩))
    rw [← union_vis, hc.union_off hn hq, hcp.union]

/-- The entry is there, and its whiteout is gone. -/
theorem OnUpper.put (h : OnUpper ro fs (Shows T₂) m) (hc : ChangeAt s n T' T₂) {x : Node}
    (hx : T₂ (s ++ [n]) = some x) (hwh : T₂ (s ++ [whName n]) = none)
    (hdir : x = .dir → ¬ Through T₂ ro.get (s ++ [n]) ∧ ∀ m, NameOk m → T₂ (s ++ [n] ++ [m]) = none)
    (hempty : ∀ m, union T ro.get (s ++ [n] ++ [m]) = none) :
    Stands ro fs (Function.update (union T ro.get) (s ++ [n]) (some x)) m := by
  obtain ⟨-, hn⟩ := pathOk_concat.mp hp
  refine h.stands (hc.upper hcp.upper hn hdot h.tree_closed fun _ hne => absurd hwh hne) ?_
  rw [hc.union_put hcp.upper.closed h.tree_closed hp hx hdir (by rwa [hcp.union]), hcp.union]

end States

/-- A new entry that is to be taken back; where the error is `EIO` its whiteout may be lost. -/
def Made (T' : Tree) (s : Path) (n : String) (wh : Bool) (e : Errno) (T₂ : Tree) : Prop :=
  ChangeAt s n T' T₂ ∧ ((T₂ (s ++ [whName n])).isSome = wh ∨ e = .eio)

section Add

variable {x : Node} {wh : Bool} (hlook : LookedUp ro.get T s n parent d) (hdot : ¬ isDot n)
  (hx : union T ro.get (s ++ [n]) = none) (hcp : CopiedUp ro.get s T T')
  (hwh : wh = (T (s ++ [whName n])).isSome)
include hlook hdot hx hcp hwh

/-- The entry is taken back. -/
theorem undo_spec {V' : Tree} (e : Errno) (op : LowerOp)
    (hop : ∀ U : Tree, op.effect U = Function.update U (s ++ [n]) none) :
    Spec O (Reached ro fs (union T ro.get) V' s n)
      (fun m => ∃ T₂, (Made T' s n wh e T₂ ∧ Faulty fs) ∧ OnUpper ro fs (Shows T₂) m)
      (do
        let r ← Trial.attempt (lower 0 op)
        if let .error _ := r then
          throw .eio
        (throw e : Exec Unit))
      (fun _ _ => False) (Failed ro fs (union T ro.get) V' s n) := by
  obtain ⟨hs, hn⟩ := pathOk_concat.mp hlook.ok
  refine Spec.exists fun T₂ => Spec.pre fun ⟨⟨hc, hback⟩, hf⟩ => ?_
  have hreach : ∀ m, OnUpper ro fs (Shows T₂) m → Reached ro fs (union T ro.get) V' s n m :=
    fun m hm => hm.reached hcp hlook.ok hdot hc hf
  refine Spec.attempt_bind (fun _ => OnUpper ro fs (Shows (Function.update T₂ (s ++ [n]) none)))
    (fun _ => OnUpper ro fs (Shows T₂)) ?_ (fun _ => ?_) fun e' => ?_
  · refine (Spec.lower op hreach fun rw rw' hc hK hget => ?_).mono_err fun _ _ h => h.1
    rw [Shows, hget, hop, vis_update (visible_of_pathOk hlook.ok)]
    exact congrArg (fun T => Function.update T _ _) hK
  · refine Trial.Triple.throw fun m hm => ⟨hf, ?_⟩
    have hc' := hc.update hn none
    rcases hback with hwh₂ | he
    · -- the tree is as it was
      refine .inl ?_
      have hentry : Function.update T₂ (s ++ [n]) none (s ++ [whName n]) = T₂ (s ++ [whName n]) :=
        Function.update_of_ne (by simpa using (ne_whName hn.1 n).symm) _ _
      have hhidden : Function.update T₂ (s ++ [n]) none (s ++ [whName n]) ≠ none ∨
          ¬ Through T' ro.get s ∨ ro.get (s ++ [n]) = none := by
        rw [hentry]
        cases hT : T (s ++ [whName n]) with
        | some y =>
          rw [hwh, hT] at hwh₂
          exact .inl (Option.isSome_iff_ne_none.mp hwh₂)
        | none =>
          by_cases ht : Through T' ro.get s
          · have hT'p : T' (s ++ [n]) = none := by
              rw [hcp.off _ (concat_not_le s n), hlook.upper_none hx]
            have hb : Below T' ro.get (s ++ [n]) := below_concat.mpr
              ⟨ht, by rw [hcp.off _ (concat_not_le s _), hT]⟩
            rw [← hcp.union, union_of_below hlook.ok hT'p hb] at hx
            exact .inr (.inr hx)
          · exact .inr (.inl ht)
      have hgone := hm.removed hcp hc' hn hdot (Function.update_self ..) hhidden fun m =>
        (union_closed hlook.upper.closed).eq_none (by simp [hx]) (by simp)
      rwa [← hx, Function.update_eq_self] at hgone
    · exact .inr ⟨he, hm.reached hcp hlook.ok hdot hc' hf⟩
  · exact Trial.Triple.throw_bind fun m hm => ⟨hf, .inr ⟨rfl, hreach m hm⟩⟩

end Add

/-- **The whiteout goes after the entry is made**; where that fails it is there again, or the error
is `EIO`. -/
theorem epilog_spec {T₁ : Tree} {wh : Bool} (hp : PathOk (s ++ [n])) (hc : ChangeAt s n T' T₁)
    (hdir : T₁ s = some .dir) (hwh : (T₁ (s ++ [whName n])).isSome = wh)
    (hreg : T₁ (s ++ [whName n]) ≠ some .dir) (hJ : ∀ m, OnUpper ro fs (Shows T₁) m → J m)
    (hJ' : ∀ m, OnUpper ro fs (Shows (Function.update T₁ (s ++ [whName n]) none)) m → J m) :
    Spec O J (OnUpper ro fs (Shows T₁)) (epilog s n 0 wh)
      (fun _ => OnUpper ro fs (Shows (Function.update T₁ (s ++ [whName n]) none)))
      fun e m => ∃ T₂, ((Made T' s n wh e T₂ ∧ T₂ (s ++ [n]) = T₁ (s ++ [n])) ∧ Faulty fs) ∧
        OnUpper ro fs (Shows T₂) m := by
  obtain ⟨hs, hn⟩ := pathOk_concat.mp hp
  have hvis := visible_whName hs hn.1
  have hentry : ∀ v, Function.update T₁ (s ++ [whName n]) v (s ++ [n]) = T₁ (s ++ [n]) := fun v =>
    Function.update_of_ne (by simpa using ne_whName hn.1 n) _ _
  cases wh with
  | false =>
    have hnone : T₁ (s ++ [whName n]) = none := by simpa using hwh
    have hsame : Function.update T₁ (s ++ [whName n]) none = T₁ := by
      rw [← hnone, Function.update_eq_self]
    rw [hsame]
    exact Spec.attempt_bind _ _ (Spec.check hJ) (fun _ => Trial.Triple.pure fun _ h => h)
      fun e => Trial.Triple.throw fun m hm => ⟨T₁, ⟨⟨⟨hc, .inl hwh⟩, rfl⟩, hm.2⟩, hm.1⟩
  | true =>
    have hc' := hc.update_whiteout hn (v := none) (.inl rfl)
    have hsdir : Function.update T₁ (s ++ [whName n]) none s = some .dir := by
      rw [Function.update_of_ne (by simp), hdir]
    refine Trial.Triple.bind
      (fun _ => OnUpper ro fs (Shows (Function.update T₁ (s ++ [whName n]) none)))
      ((Spec.lower (.unlink _) hJ fun rw rw' hc hK hget => ?_).mono_err fun e m h =>
      ⟨T₁, ⟨⟨⟨hc, .inl hwh⟩, rfl⟩, ?_⟩, h.1⟩) fun _ => ?_
    · rw [Shows, hget]
      exact (vis_update hvis _).trans (congrArg (fun T => Function.update T _ _) hK)
    · refine h.2 fun rw hc hK => ⟨?_, ?_⟩
      · rwa [Shows.get hK hvis, ← Option.isSome_iff_ne_none]
      · rwa [Shows.get hK hvis]
    · refine Spec.attempt_bind _ _ (Spec.check hJ') (fun _ => Trial.Triple.pure fun _ h => h)
        fun e => ?_
      refine Spec.attempt_bind _ _ ((auWhCreate_spec hJ' hp hsdir (Function.update_self ..)).frame
        (φ := Faulty fs)) (fun _ => Trial.Triple.throw fun m hm => ⟨_, ⟨⟨⟨hc'.update_whiteout hn
          (.inr rfl), .inl ?_⟩, ?_⟩, hm.2⟩, hm.1⟩) fun e' => Trial.Triple.throw_bind fun m hm =>
            ⟨_, ⟨⟨⟨hc', .inr rfl⟩, hentry none⟩, hm.2⟩, hm.1.1⟩
      · rw [Function.update_self]
        rfl
      · rw [Function.update_of_ne (by simpa using ne_whName hn.1 n), hentry]

/-! ## Operations -/

section Operations

variable {V' : Tree} {x : Node} (hlook : LookedUp ro.get T s n parent d)
  (hx : union T ro.get (s ++ [n]) = none)
include hlook hx

/-- A directory takes the place of an entry that does not show: it is opaque where a whiteout hid the
entry, and otherwise the lower tree has nothing there. -/
theorem OnUpper.put_dir (hcp : CopiedUp ro.get s T T') (hdot : ¬ isDot n)
    (hc : ChangeAt s n T' T₂) (hentry : T₂ (s ++ [n]) = some .dir)
    (hbelow : ∀ m, NameOk m → T₂ (s ++ [n] ++ [m]) = none)
    (hmark : T' (s ++ [whName n]) ≠ none → T₂ (s ++ [n] ++ [diropqName]) ≠ none)
    (h : OnUpper ro fs (Shows (Function.update T₂ (s ++ [whName n]) none)) m) :
    Stands ro fs (Function.update (union T ro.get) (s ++ [n]) (some .dir)) m := by
  obtain ⟨hs, hn⟩ := pathOk_concat.mp hlook.ok
  have hc' := hc.update_whiteout hn (v := none) (.inl rfl)
  have hentry' : Function.update T₂ (s ++ [whName n]) none (s ++ [n]) = some .dir := by
    rw [Function.update_of_ne (by simpa using ne_whName hn.1 n), hentry]
  refine h.put hcp hlook.ok hdot hc' hentry' (Function.update_self ..) (fun _ => ⟨?_, ?_⟩)
    fun m => (union_closed hlook.upper.closed).eq_none (by simp [hx]) (by simp)
  · intro hthrough
    obtain ⟨hts, -, hlow, hopq⟩ := through_concat.mp hthrough
    have hts' := (hc'.through_off hn hs (concat_not_le s n)).mp hts
    by_cases hwh : T' (s ++ [whName n]) = none
    · -- no whiteout hid the entry, so the lower tree has it not
      have hT'p : T' (s ++ [n]) = none := by
        rw [hcp.off _ (concat_not_le s n), hlook.upper_none hx]
      rw [← hcp.union, union_of_below hlook.ok hT'p (below_concat.mpr ⟨hts', hwh⟩), hlow] at hx
      cases hx
    · rw [hentry', Function.update_of_ne (below_ne_whName hn s _)] at hopq
      exact hmark hwh (hopq.resolve_left (by simp)).2
  · intro m hm
    rw [Function.update_of_ne (below_ne_whName hn s _), hbelow m hm]

/-- The start of an addition: the branch of the entry, with its parent. -/
theorem add_spec {f : Bool × ℕ → Exec Unit} {Q : Unit → Mount → Prop}
    (h : ∀ T' wh, CopiedUp ro.get s T T' → T' s = some .dir → wh = (T (s ++ [whName n])).isSome →
      Spec O (Reached ro fs (union T ro.get) V' s n) (OnUpper ro fs (Shows T')) (f (wh, 0)) Q
        (Failed ro fs (union T ro.get) V' s n)) :
    Spec O (Reached ro fs (union T ro.get) V' s n) (OnUpper ro fs (Shows T))
      (lockHdirLkupWh s n parent d >>= f) Q (Failed ro fs (union T ro.get) V' s n) := by
  refine Trial.Triple.bind _ ((lockHdirLkupWh_spec hlook
    (fun T' m hcp hm => .inl (hm.stands_copiedUp hcp)) hx).mono_err fun e m h => ⟨h.2, .inl ?_⟩)
    fun r => Spec.pre fun hr => Spec.exists fun T' =>
      Spec.pre fun hT' => ?_
  · obtain ⟨T', hcp, hm⟩ := h.1
    exact hm.stands_copiedUp hcp
  · obtain ⟨wh, b⟩ := r
    obtain ⟨hb, hwh⟩ : b = 0 ∧ wh = (T (s ++ [whName n])).isSome := hr
    subst hb
    exact h T' wh hT'.1 hT'.2 hwh

variable (hcp : CopiedUp ro.get s T T')
include hcp

/-- The new entry is made, beside its whiteout where there is one. -/
theorem create_spec (hdir : T' s = some .dir) :
    Spec O (Reached ro fs (union T ro.get) V' s n) (OnUpper ro fs (Shows T'))
      (lower 0 (.create (s ++ [n]) x))
      (fun _ => OnUpper ro fs (Shows (Function.update T' (s ++ [n]) (some x))))
      (Failed ro fs (union T ro.get) V' s n) := by
  obtain ⟨hs, hn⟩ := pathOk_concat.mp hlook.ok
  have hvis := visible_of_pathOk hlook.ok
  refine (Spec.lower (.create _ _) (fun m hm => .inl (hm.stands_copiedUp hcp))
    fun rw rw' hc hK hget => ?_).mono_err fun e m h =>
    ⟨h.2 fun rw hc hK => ⟨?_, ?_⟩, .inl (h.1.stands_copiedUp hcp)⟩
  · rw [Shows, hget]
    exact (vis_update hvis _).trans (congrArg (fun T => Function.update T _ _) hK)
  · rw [Shows.get hK hvis, hcp.off _ (concat_not_le s n), hlook.upper_none hx]
  · rw [List.dropLast_concat, Shows.get hK (visible_of_pathOk hs), hdir]

omit hx in
theorem LookedUp.whiteout_ne_dir : T' (s ++ [whName n]) ≠ some .dir := by
  obtain ⟨hs, hn⟩ := pathOk_concat.mp hlook.ok
  rw [hcp.off _ (concat_not_le s _)]
  intro h
  have hreg := hlook.upper.whiteout s n .dir hs hn.1 h
  cases hreg

omit hcp in
/-- **A file, a symbolic link or a node is made**, or nothing has changed. -/
theorem addSimple_spec (hdot : ¬ isDot n) (hxdir : x ≠ .dir) :
    Spec O (Reached ro fs (union T ro.get) (Function.update (union T ro.get) (s ++ [n]) (some x)) s n)
      (OnUpper ro fs (Shows T)) (addSimple s n parent d x)
      (fun _ => Stands ro fs (Function.update (union T ro.get) (s ++ [n]) (some x)))
      (Failed ro fs (union T ro.get)
        (Function.update (union T ro.get) (s ++ [n]) (some x)) s n) := by
  obtain ⟨hs, hn⟩ := pathOk_concat.mp hlook.ok
  have hempty : ∀ m, union T ro.get (s ++ [n] ++ [m]) = none := fun m =>
    (union_closed hlook.upper.closed).eq_none (by simp [hx]) (by simp)
  rw [addSimple, hlook.dentry.node hlook.ok, hx]
  refine add_spec hlook hx fun T' wh hcp hdir hwh => ?_
  refine Trial.Triple.bind _ (create_spec hlook hx hcp hdir) fun _ => ?_
  generalize hT₁ : Function.update T' (s ++ [n]) (some x) = T₁
  have hc₁ : ChangeAt s n T' T₁ := hT₁ ▸ ChangeAt.refl.update hn (some x)
  have hentry : T₁ (s ++ [n]) = some x := by rw [← hT₁, Function.update_self]
  have hwh₁ : T₁ (s ++ [whName n]) = T' (s ++ [whName n]) := by
    rw [← hT₁, Function.update_of_ne (by simpa using (ne_whName hn.1 n).symm)]
  have hsome : (T₁ (s ++ [whName n])).isSome = wh := by
    rw [hwh₁, hcp.off _ (concat_not_le s _), hwh]
  have hput : ∀ {m v}, OnUpper ro fs (Shows (Function.update T₁ (s ++ [whName n]) v)) m → v = none →
      Stands ro fs (Function.update (union T ro.get) (s ++ [n]) (some x)) m := by
    rintro m v hm rfl
    refine hm.put hcp hlook.ok hdot (hc₁.update_whiteout hn (.inl rfl)) ?_ (Function.update_self ..)
      (fun h => absurd h hxdir) hempty
    rw [Function.update_of_ne (by simpa using ne_whName hn.1 n), hentry]
  have hJ₁ : ∀ m, OnUpper ro fs (Shows T₁) m → Reached ro fs (union T ro.get)
      (Function.update (union T ro.get) (s ++ [n]) (some x)) s n m := by
    intro m hm
    by_cases hnone : T₁ (s ++ [whName n]) = none
    · rw [← Function.update_eq_self (s ++ [whName n]) T₁] at hm
      exact .inr (.inl (hput hm hnone))
    · exact .inr (.inr (.inl (hcp.union ▸ hm.torn hcp.upper hc₁ hm.tree_closed hlook.ok hdot
        (by simp [hentry]) hnone)))
  have hdir₁ : T₁ s = some .dir := by rw [← hT₁, Function.update_of_ne (by simp), hdir]
  refine Spec.attempt_bind _ _ (epilog_spec hlook.ok hc₁ hdir₁ hsome
    (hwh₁ ▸ hlook.whiteout_ne_dir hcp) hJ₁ fun m hm => .inr (.inl (hput hm rfl)))
    (fun _ => Trial.Triple.pure fun m hm => hput hm rfl) fun e => ?_
  -- the entry is taken back
  refine Spec.exists fun T₂ => Spec.pre fun ⟨⟨hmade, hentry₂⟩, hf⟩ => ?_
  refine Trial.Triple.bind (fun there m => there = some x ∧ OnUpper ro fs (Shows T₂) m)
    ((dInode_spec fun m hm => hm.reached hcp hlook.ok hdot hmade.1 hf).mono (fun _ h => h)
      (fun there m hm => ?_) (fun _ _ h => h.elim) fun _ _ h => h)
      fun there => Spec.pre fun hthere => ?_
  · obtain ⟨rw, hbr, hc, hfs, hK, hget⟩ := hm
    rw [Shows.get hK (visible_of_pathOk hlook.ok), hentry₂, hentry] at hget
    exact ⟨hget.symm, rw, hbr, hc, hfs, hK⟩
  · refine Trial.Triple.ite (fun _ => ?_) fun h => absurd h (by simp [hthere])
    exact (undo_spec hlook hdot hx hcp hwh e (.unlink (s ++ [n])) fun _ => rfl).mono
      (fun m hm => ⟨T₂, ⟨hmade, hf⟩, hm⟩) (fun _ _ h => h.elim) (fun _ _ h => h) fun _ _ h => h

omit hlook hx hcp in
/-- The opaque marker of a directory is made. -/
theorem auDiropqCreate_spec {T₁ : Tree} (hp : PathOk (s ++ [n]))
    (hJ : ∀ m, OnUpper ro fs (Shows T₁) m → J m) (hdir : T₁ (s ++ [n]) = some .dir)
    (hnone : T₁ (s ++ [n] ++ [diropqName]) = none) :
    Spec O J (OnUpper ro fs (Shows T₁)) (auDiropqCreate 0 (s ++ [n]))
      (fun _ => OnUpper ro fs
        (Shows (Function.update T₁ (s ++ [n] ++ [diropqName]) (some (.file [])))))
      fun _ m => OnUpper ro fs (Shows T₁) m ∧ Faulty fs := by
  have hvis := visible_diropq hp
  refine Trial.Triple.bind (fun _ => OnUpper ro fs (Shows T₁))
    ((lkupOne_spec hJ).mono (fun _ h => h)
    (fun _ _ h => h.mono fun _ h => h.1) (fun _ _ h => h) fun _ _ h => h) fun _ => ?_
  refine (Spec.lower (.create _ _) hJ fun rw rw' hc hK hget => ?_).mono_err fun e m h =>
    ⟨h.1, h.2 fun rw hc hK => ⟨?_, ?_⟩⟩
  · rw [Shows, hget]
    exact (vis_update hvis _).trans (congrArg (fun T => Function.update T _ _) hK)
  · rw [Shows.get hK hvis, hnone]
  · rw [List.dropLast_concat, Shows.get hK (visible_of_pathOk hp), hdir]

omit hlook hx hcp in
/-- The removal of the marker ends in an oops, unless it fails before. -/
theorem auDiropqRemove_spec {T₁ : Tree} (hO : O) (hJ : ∀ m, OnUpper ro fs (Shows T₁) m → J m) :
    Spec O J (OnUpper ro fs (Shows T₁)) (auDiropqRemove 0 (s ++ [n])) (fun _ _ => False)
      fun _ => OnUpper ro fs (Shows T₁) := by
  refine Trial.Triple.bind (fun _ => OnUpper ro fs (Shows T₁))
    ((lkupOne_spec hJ).mono (fun _ h => h)
    (fun _ _ h => h.mono fun _ h => h.1) (fun _ _ h => h.1) fun _ _ h => h) fun _ => ?_
  exact Trial.Triple.halt fun m hm => ⟨hJ m hm, fun _ => hO⟩

omit hcp in
/-- **A directory is made**, opaque where it takes the place of a whiteout, or nothing has
changed. -/
theorem aufsMkdir_spec (hdot : ¬ isDot n) (hO : Faulty fs → O) :
    Spec O (Reached ro fs (union T ro.get)
        (Function.update (union T ro.get) (s ++ [n]) (some .dir)) s n)
      (OnUpper ro fs (Shows T)) (aufsMkdir s n parent d)
      (fun _ => Stands ro fs (Function.update (union T ro.get) (s ++ [n]) (some .dir)))
      (Failed ro fs (union T ro.get) (Function.update (union T ro.get) (s ++ [n]) (some .dir)) s
        n) := by
  obtain ⟨hs, hn⟩ := pathOk_concat.mp hlook.ok
  rw [aufsMkdir, hlook.dentry.node hlook.ok, hx]
  refine add_spec hlook hx fun T' wh hcp hdir hwh => ?_
  refine Trial.Triple.bind _ (create_spec hlook hx hcp hdir) fun _ => ?_
  have hT'p : T' (s ++ [n]) = none := by
    rw [hcp.off _ (concat_not_le s n), hlook.upper_none hx]
  have hT'below : ∀ m, T' (s ++ [n] ++ [m]) = none := fun m =>
    hcp.upper.closed.eq_none (by simp [hT'p]) (by simp)
  generalize hT₁ : Function.update T' (s ++ [n]) (some .dir) = T₁
  have hc₁ : ChangeAt s n T' T₁ := hT₁ ▸ ChangeAt.refl.update hn (some .dir)
  have hentry : T₁ (s ++ [n]) = some .dir := by rw [← hT₁, Function.update_self]
  have hbelow : ∀ m, T₁ (s ++ [n] ++ [m]) = none := fun m => by
    rw [← hT₁, Function.update_of_ne (by simp), hT'below]
  have hwh₁ : T₁ (s ++ [whName n]) = T' (s ++ [whName n]) := by
    rw [← hT₁, Function.update_of_ne (by simpa using (ne_whName hn.1 n).symm)]
  have hsome : (T₁ (s ++ [whName n])).isSome = wh := by
    rw [hwh₁, hcp.off _ (concat_not_le s _), hwh]
  -- the directory after its marker
  generalize hT₂ : (if wh = true then
    Function.update T₁ (s ++ [n] ++ [diropqName]) (some (.file [])) else T₁) = T₂
  have hne : s ++ [whName n] ≠ s ++ [n] ++ [diropqName] := (below_ne_whName hn s _).symm
  have hc₂ : ChangeAt s n T' T₂ := by
    rw [← hT₂]
    split_ifs
    · exact hc₁.update_diropq hn (.inr rfl)
    · exact hc₁
  have hentry₂ : T₂ (s ++ [n]) = some .dir := by
    rw [← hT₂]
    split_ifs
    · rw [Function.update_of_ne (by simp), hentry]
    · exact hentry
  have hwh₂ : T₂ (s ++ [whName n]) = T' (s ++ [whName n]) := by
    rw [← hT₂]
    split_ifs
    · rw [Function.update_of_ne hne, hwh₁]
    · exact hwh₁
  have hdir₂ : T₂ s = some .dir := by
    rw [hc₂.off s (concat_not_le s n) (by simp), hdir]
  have hmark : T' (s ++ [whName n]) ≠ none → T₂ (s ++ [n] ++ [diropqName]) ≠ none := by
    intro h
    have hw : wh = true := by rw [← hsome, hwh₁, Option.isSome_iff_ne_none.mpr h]
    rw [← hT₂, if_pos hw, Function.update_self]
    exact Option.some_ne_none _
  have hbelow₂ : ∀ m, NameOk m → T₂ (s ++ [n] ++ [m]) = none := by
    intro m hm
    have hmo : s ++ [n] ++ [m] ≠ s ++ [n] ++ [diropqName] := fun h =>
      ne_whName hm.1 (whName ".opq") (List.append_singleton_inj.mp h).2
    rw [← hT₂]
    split_ifs
    · rw [Function.update_of_ne hmo, hbelow]
    · exact hbelow m
  have hput : ∀ {m v}, OnUpper ro fs (Shows (Function.update T₂ (s ++ [whName n]) v)) m →
      v = none → Stands ro fs (Function.update (union T ro.get) (s ++ [n]) (some .dir)) m := by
    rintro m v hm rfl
    exact hm.put_dir hlook hx hcp hdot hc₂ hentry₂ hbelow₂ hmark
  have hJ₂ : ∀ m, OnUpper ro fs (Shows T₂) m → Reached ro fs (union T ro.get)
      (Function.update (union T ro.get) (s ++ [n]) (some .dir)) s n m := by
    intro m hm
    by_cases hnone : T₂ (s ++ [whName n]) = none
    · rw [← Function.update_eq_self (s ++ [whName n]) T₂] at hm
      exact .inr (.inl (hput hm hnone))
    · exact .inr (.inr (.inl (hcp.union ▸ hm.torn hcp.upper hc₂ hm.tree_closed hlook.ok hdot
        (by simp [hentry₂]) hnone)))
  have hJ₁ : ∀ m, OnUpper ro fs (Shows T₁) m → Reached ro fs (union T ro.get)
      (Function.update (union T ro.get) (s ++ [n]) (some .dir)) s n m := by
    intro m hm
    cases hw : wh with
    | false =>
      have hsame : T₁ = T₂ := by rw [← hT₂, hw, if_neg Bool.false_ne_true]
      exact hJ₂ m (hsame ▸ hm)
    | true =>
      rw [hw, Option.isSome_iff_ne_none] at hsome
      exact .inr (.inr (.inl (hcp.union ▸ hm.torn hcp.upper hc₁ hm.tree_closed hlook.ok hdot
        (by simp [hentry]) hsome)))
  have hrevert : ∀ e, Spec O (Reached ro fs (union T ro.get)
      (Function.update (union T ro.get) (s ++ [n]) (some .dir)) s n)
      (fun m => ∃ T₂, (Made T' s n wh e T₂ ∧ Faulty fs) ∧ OnUpper ro fs (Shows T₂) m)
      (mkdirRevert s n 0 e)
      (fun _ => Stands ro fs (Function.update (union T ro.get) (s ++ [n]) (some .dir)))
      (Failed ro fs (union T ro.get) (Function.update (union T ro.get) (s ++ [n]) (some .dir)) s
        n) := fun e =>
    (undo_spec hlook hdot hx hcp hwh e (.rmdir (s ++ [n])) fun _ => rfl).mono (fun _ h => h)
      (fun _ _ h => h.elim) (fun _ _ h => h) fun _ _ h => h
  refine Spec.attempt_bind (fun _ => OnUpper ro fs (Shows T₂))
    (fun _ m => OnUpper ro fs (Shows T₁) m ∧ Faulty fs) ?_ (fun _ => ?_)
    fun e => (hrevert e).mono_pre fun m hm => ⟨T₁, ⟨⟨hc₁, .inl hsome⟩, hm.2⟩, hm.1⟩
  · cases hw : wh with
    | true =>
      rw [← hT₂, if_pos hw]
      exact auDiropqCreate_spec hlook.ok hJ₁ hentry (hbelow _)
    | false =>
      rw [← hT₂, hw, if_neg Bool.false_ne_true]
      exact Trial.Triple.pure fun _ h => h
  · have hsome₂ : (T₂ (s ++ [whName n])).isSome = wh := by rw [hwh₂, ← hwh₁, hsome]
    refine Spec.attempt_bind _ _ (epilog_spec hlook.ok hc₂ hdir₂ hsome₂
      (hwh₂ ▸ hlook.whiteout_ne_dir hcp) hJ₂ fun m hm => .inr (.inl (hput hm rfl)))
      (fun _ => Trial.Triple.pure fun m hm => hput hm rfl) fun e => ?_
    -- the marker cannot be taken back; without one the directory is
    refine Spec.exists fun T₃ => Spec.pre fun ⟨⟨hmade, _⟩, hf⟩ => ?_
    have hJ₃ : ∀ m, OnUpper ro fs (Shows T₃) m → Reached ro fs (union T ro.get)
        (Function.update (union T ro.get) (s ++ [n]) (some .dir)) s n m := fun m hm =>
      hm.reached hcp hlook.ok hdot hmade.1 hf
    refine Spec.attempt_bind (fun _ => OnUpper ro fs (Shows T₃))
      (fun _ => OnUpper ro fs (Shows T₃)) ?_ (fun _ => ?_) fun e' => ?_
    · refine Trial.Triple.ite (fun _ => ?_) fun _ => Trial.Triple.pure fun m hm => hm
      exact (auDiropqRemove_spec (hO hf) hJ₃).mono (fun _ h => h) (fun _ _ h => h.elim)
        (fun _ _ h => h) fun _ _ h => h
    · exact (hrevert e).mono_pre fun m hm => ⟨T₃, ⟨hmade, hf⟩, hm⟩
    · exact (hrevert .eio).mono_pre fun m hm => ⟨T₃, ⟨⟨hmade.1, .inr rfl⟩, hf⟩, hm⟩

end Operations

/-! ## Writing -/

/-- A file of the writable branch is written. -/
theorem writeEntry_spec {t₀ t : Text} (hu : Upper T) (hp : PathOk (s ++ [n])) (hdot : ¬ isDot n)
    (hentry : T (s ++ [n]) = some (.file t₀)) (hwh : T (s ++ [whName n]) = none) :
    Spec O (Reached ro fs (union T ro.get)
        (Function.update (union T ro.get) (s ++ [n]) (some (.file t))) s n)
      (OnUpper ro fs (Shows T))
      (do
        check
        lower 0 (.write (s ++ [n]) t))
      (fun _ => Stands ro fs (Function.update (union T ro.get) (s ++ [n]) (some (.file t))))
      (Failed ro fs (union T ro.get)
        (Function.update (union T ro.get) (s ++ [n]) (some (.file t))) s n) := by
  obtain ⟨hs, hn⟩ := pathOk_concat.mp hp
  have hvis := visible_of_pathOk hp
  have hJ : ∀ m, OnUpper ro fs (Shows T) m → Reached ro fs (union T ro.get)
      (Function.update (union T ro.get) (s ++ [n]) (some (.file t))) s n m := fun m hm =>
    .inl (hm.stands hu rfl)
  refine Trial.Triple.bind _ ((Spec.check hJ).mono_err fun _ m h => ⟨h.2, .inl (h.1.stands hu rfl)⟩)
    fun _ => ?_
  refine (Spec.lower (L := Shows (Function.update T (s ++ [n]) (some (.file t)))) (.write _ _) hJ
    fun rw rw' hc hK hget => ?_).mono (fun _ h => h) (fun _ m hm => ?_)
    (fun e m h => ⟨h.2 fun rw hc hK => ?_, .inl (h.1.stands hu rfl)⟩) fun _ _ h => h
  · rw [Shows, hget]
    exact (vis_update hvis _).trans (congrArg (fun T => Function.update T _ _) hK)
  · have hne : s ++ [whName n] ≠ s ++ [n] := by simpa using (ne_whName hn.1 n).symm
    have hbelow : ∀ m, union T ro.get (s ++ [n] ++ [m]) = none := fun m =>
      (union_closed hu.closed).eq_none (by simp [union_of_upper hp hentry]) (by simp)
    refine hm.put (CopiedUp.refl hu) hp hdot (ChangeAt.refl.update hn _)
      (Function.update_self ..) ?_
      (fun h => by cases h) hbelow
    rw [Function.update_of_ne hne, hwh]
  · exact ⟨t₀, by rw [Shows.get hK hvis, hentry]⟩

/-- **A file is written**, after it is copied up where the branch has it not, or nothing has
changed. -/
theorem aufsWrite_spec {t₀ t : Text} (hlook : LookedUp ro.get T s n parent d)
    (hx : union T ro.get (s ++ [n]) = some (.file t₀)) :
    Spec O (Reached ro fs (union T ro.get)
        (Function.update (union T ro.get) (s ++ [n]) (some (.file t))) s n)
      (OnUpper ro fs (Shows T)) (aufsWrite s n parent d t)
      (fun _ => Stands ro fs (Function.update (union T ro.get) (s ++ [n]) (some (.file t))))
      (Failed ro fs (union T ro.get)
        (Function.update (union T ro.get) (s ++ [n]) (some (.file t))) s n) := by
  obtain ⟨hs, hn⟩ := pathOk_concat.mp hlook.ok
  have hshown : union T ro.get (s ++ [n]) ≠ none := by simp [hx]
  have hdot := hlook.not_isDot hshown
  have hwh := hlook.whiteout_none hshown
  have hJ : ∀ T' m, CopiedUp ro.get s T T' → OnUpper ro fs (Shows T') m →
      Reached ro fs (union T ro.get)
        (Function.update (union T ro.get) (s ++ [n]) (some (.file t))) s n m := fun T' m hcp hm =>
    .inl (hm.stands_copiedUp hcp)
  have hJT := fun m => hJ T m (CopiedUp.refl hlook.upper)
  rw [aufsWrite, hlook.dentry.node hlook.ok, hx]
  refine Spec.read hJT fun rw hc hrw => ?_
  have hback : ∀ m, OnUpper ro fs (· = rw) m → OnUpper ro fs (Shows T) m := fun m hm =>
    hm.mono (by rintro rw rfl; exact hrw)
  by_cases hT : T (s ++ [n]) = none
  · have hstart := hlook.dentry.dbstart_of_lower hlook.ok hT hshown
    simp only [hstart, Option.getD_some, writable_one, Bool.false_eq_true, if_false]
    refine Trial.Triple.bind _ ((auWbrCreateTdp_spec hJT hlook.upper hlook.lower.closed hlook.dir
      hlook.parent hlook.dentry hlook.ok).mono hback (fun _ _ h => h) (fun _ _ h => h.elim)
      fun _ _ h => h) fun b => Spec.pre fun hb => ?_
    subst hb
    -- once the parent is there, the file is copied up and written
    have hcopy : Spec O (Reached ro fs (union T ro.get)
        (Function.update (union T ro.get) (s ++ [n]) (some (.file t))) s n)
        (fun m => ∃ T', (CopiedUp ro.get s T T' ∧ T' s = some .dir) ∧ OnUpper ro fs (Shows T') m)
        (do
          check
          check
          auSioCpupSimple 0 s n d
          check
          lower 0 (.write (s ++ [n]) t))
        (fun _ => Stands ro fs (Function.update (union T ro.get) (s ++ [n]) (some (.file t))))
        (Failed ro fs (union T ro.get)
          (Function.update (union T ro.get) (s ++ [n]) (some (.file t))) s n) := by
      refine Spec.exists fun T' => Spec.pre fun ⟨hcp, hdir⟩ => ?_
      have hJT' := fun m => hJ T' m hcp
      have hcheck : Spec O (Reached ro fs (union T ro.get)
          (Function.update (union T ro.get) (s ++ [n]) (some (.file t))) s n)
          (OnUpper ro fs (Shows T')) check (fun _ => OnUpper ro fs (Shows T'))
          (Failed ro fs (union T ro.get)
            (Function.update (union T ro.get) (s ++ [n]) (some (.file t))) s n) :=
        (Spec.check hJT').mono_err fun _ m h => ⟨h.2, .inl (h.1.stands_copiedUp hcp)⟩
      have hT' : T' (s ++ [n]) = none := by rw [hcp.off _ (concat_not_le s n), hT]
      have hx' : union T' ro.get (s ++ [n]) = some (.file t₀) := by rw [hcp.union, hx]
      have hfind : auSioCpupSimple 0 s n d = auCpupSimple 0 s n (.file t₀) := by
        simp [auSioCpupSimple, hlook.dentry.lower_of_none hlook.ok hT hx]
      refine Trial.Triple.bind _ hcheck fun _ => Trial.Triple.bind _ hcheck fun _ => ?_
      rw [hfind]
      refine Trial.Triple.bind _ ((auCpupSimple_spec hJT' hs hdir hn hT' (.file t₀)).mono_err
        fun _ m h => ⟨h.2, .inl (h.1.stands_copiedUp hcp)⟩) fun _ => ?_
      have hsame : union (Function.update T' (s ++ [n]) (some (.file t₀))) ro.get =
          union T ro.get := by
        rw [union_copyup hcp.upper.closed hn hT' hx', hcp.union]
      have hne : s ++ [whName n] ≠ s ++ [n] := by simpa using (ne_whName hn.1 n).symm
      have hwh' : Function.update T' (s ++ [n]) (some (.file t₀)) (s ++ [whName n]) = none := by
        rw [Function.update_of_ne hne, hcp.off _ (concat_not_le s _), hwh]
      rw [← hsame]
      exact writeEntry_spec (upper_copyup hcp.upper hlook.lower hdir hT' hx') hlook.ok hdot
        (Function.update_self ..) hwh'
    have hcpup := cpupParent_spec (O := O) hlook hJ
    have hfail : ∀ (e : Errno) m, (∃ T', CopiedUp ro.get s T T' ∧ OnUpper ro fs (Shows T') m) ∧
        Faulty fs → Failed ro fs (union T ro.get)
          (Function.update (union T ro.get) (s ++ [n]) (some (.file t))) s n e m := by
      rintro e m ⟨⟨T', hcp, hm⟩, hf⟩
      exact ⟨hf, .inl (hm.stands_copiedUp hcp)⟩
    refine Trial.Triple.ite (fun hp => ?_) fun hp => ?_
    · rw [if_pos hp] at hcpup
      exact Trial.Triple.bind _ (hcpup.mono_err hfail)
        fun _ => hcopy
    · have hdir := hlook.hDptr_parent.mp (by simpa using hp)
      exact hcopy.mono_pre fun m hm => ⟨T, ⟨CopiedUp.refl hlook.upper, hdir⟩, hm⟩
  · have hstart := hlook.dentry.dbstart_of_upper hT
    have hentry : T (s ++ [n]) = some (.file t₀) := by
      obtain ⟨y, hy⟩ := Option.ne_none_iff_exists'.mp hT
      rw [← hx, union_of_upper hlook.ok hy, hy]
    simp only [hstart, Option.getD_some, writable_zero, if_true]
    exact (writeEntry_spec hlook.upper hlook.ok hdot hentry hwh).mono_pre hback

end Meta3dr.Aufs
