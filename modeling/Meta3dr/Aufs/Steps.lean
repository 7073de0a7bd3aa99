import Meta3dr.Aufs.Change
import Meta3dr.Aufs.Ops

/-!
# The steps of an operation

What the steps of an operation do to the upper tree of a mount of two branches: the whiteouts and
temporary names, the copy-up of an entry and of the directories above it. A step that fails leaves
what it found, and points to a fault.

## Main definitions

* `OnUpper`: an assertion on the writable branch of a mount
* `Spec`: what a program does from an assertion, with an invariant of every command
* `CopiedUp`: the upper tree after directories were copied up

## Main results

* `Spec.lower`, `Spec.read`, `Spec.check`: the rules of the commands
* `auCpupSimple_spec`, `auCpupDirs_spec`: an entry copied up, and the directories above it
-/

namespace Meta3dr.Aufs

open Shell Program

/-- Some step of the mount fails. -/
def Faulty (fs : List (Option Errno)) : Prop := ∃ e, some e ∈ fs

/-- An assertion on the writable branch of a mount, over a read-only one. -/
def OnUpper (ro : Files) (fs : List (Option Errno)) (K : Files → Prop) (m : Mount) : Prop :=
  ∃ rw, m.branches = mountBranches rw ro ∧ Tree.Closed rw.get ∧ m.faults <:+ fs ∧ K rw

/-- What a program does from an assertion, where every command and every exit is reached in `J`, and
an oops only if `O`. -/
abbrev Spec {α : Type} (O : Prop) (J P : Mount → Prop) (t : Exec α) (Q : α → Mount → Prop)
    (F : Errno → Mount → Prop) : Prop :=
  Trial.Triple step (fun m _ => J m) P t Q F fun x m => J m ∧ (x = .oops → O)

section Commands

variable {O : Prop} {ro : Files} {fs : List (Option Errno)} {J : Mount → Prop}
  {K L : Files → Prop} {α β : Type}

theorem OnUpper.mono {m : Mount} (h : OnUpper ro fs K m) (hK : ∀ rw, K rw → L rw) :
    OnUpper ro fs L m := by
  obtain ⟨rw, hbr, hc, hfs, hrw⟩ := h
  exact ⟨rw, hbr, hc, hfs, hK rw hrw⟩

theorem Spec.pre {P : Mount → Prop} {φ : Prop} {t : Exec α} {Q : α → Mount → Prop}
    {F : Errno → Mount → Prop} (h : φ → Spec O J P t Q F) : Spec O J (fun m => φ ∧ P m) t Q F :=
  fun m hm => h hm.1 m hm.2

theorem Spec.exists {ι : Type} {P : ι → Mount → Prop} {t : Exec α} {Q : α → Mount → Prop}
    {F : Errno → Mount → Prop} (h : ∀ i, Spec O J (P i) t Q F) : Spec O J (fun m => ∃ i, P i m) t Q F :=
  fun m ⟨i, hm⟩ => h i m hm

/-- What does not depend on the mount is kept. -/
theorem Spec.frame {P : Mount → Prop} {φ : Prop} {t : Exec α} {Q : α → Mount → Prop}
    {F : Errno → Mount → Prop} (h : Spec O J P t Q F) :
    Spec O J (fun m => P m ∧ φ) t (fun a m => Q a m ∧ φ) fun e m => F e m ∧ φ :=
  fun m hm => (h.mono (fun _ h => h) (fun _ _ h => ⟨h, hm.2⟩) (fun _ _ h => ⟨h, hm.2⟩)
    fun _ _ h => h) m hm.1

theorem Spec.weaken {J' P : Mount → Prop} {t : Exec α} {Q : α → Mount → Prop}
    {F : Errno → Mount → Prop} (h : Spec O J P t Q F) (hJ : ∀ m, J m → J' m) : Spec O J' P t Q F :=
  fun m hm => (h m hm).mono (fun _ _ h => hJ _ h) (fun _ _ h => h) fun _ _ h => ⟨hJ _ h.1, h.2⟩

/-- The program goes on after an error. -/
theorem Spec.attempt_bind {P : Mount → Prop} {t : Exec α} {f : Except Errno α → Exec β}
    {Q : β → Mount → Prop} {F : Errno → Mount → Prop} (M : α → Mount → Prop)
    (G : Errno → Mount → Prop) (ht : Spec O J P t M G) (hok : ∀ a, Spec O J (M a) (f (.ok a)) Q F)
    (herr : ∀ e, Spec O J (G e) (f (.error e)) Q F) : Spec O J P (Trial.attempt t >>= f) Q F := by
  refine Trial.Triple.bind (Trial.onResult M G) (Trial.Triple.attempt (Q := Trial.onResult M G) ht)
    fun r => ?_
  cases r with
  | ok a => exact hok a
  | error e => exact herr e

/-- A step that may fail, where the branches stay as they are. -/
theorem Spec.check (hJ : ∀ m, OnUpper ro fs K m → J m) :
    Spec O J (OnUpper ro fs K) check (fun _ => OnUpper ro fs K)
      fun _ m => OnUpper ro fs K m ∧ Faulty fs := by
  refine Trial.Triple.call fun m hm => ⟨hJ m hm, ?_⟩
  obtain ⟨rw, hbr, hc, hfs, hrw⟩ := hm
  cases hq : m.faults with
  | nil =>
    -- no fault is due any more
    simp only [step, Mount.fault, hq]
    exact ⟨rw, hbr, hc, hfs, hrw⟩
  | cons f rest =>
    rw [hq] at hfs
    have hrest : rest <:+ fs := (List.suffix_cons f rest).trans hfs
    cases f with
    | none =>
      simp only [step, Mount.fault, hq]
      exact ⟨rw, hbr, hc, hrest, hrw⟩
    | some e =>
      -- the fault that is due was there at the start
      simp only [step, Mount.fault, hq]
      exact ⟨⟨rw, hbr, hc, hrest, hrw⟩, e, hfs.subset List.mem_cons_self⟩

theorem Spec.tick (hJ : ∀ m, OnUpper ro fs K m → J m) :
    Spec O J (OnUpper ro fs K) tick (fun _ => OnUpper ro fs K) fun _ _ => False :=
  Trial.Triple.call fun m hm => ⟨hJ m hm, hm⟩

/-- A look at the branches. -/
theorem Spec.read {f : List Branch → Exec α} {Q : α → Mount → Prop} {F : Errno → Mount → Prop}
    (hJ : ∀ m, OnUpper ro fs K m → J m)
    (h : ∀ rw, Tree.Closed rw.get → K rw →
      Spec O J (OnUpper ro fs (· = rw)) (f (mountBranches rw ro)) Q F) :
    Spec O J (OnUpper ro fs K) (Aufs.read >>= f) Q F := by
  refine Trial.Triple.bind (fun brs m => ∃ rw,
    (Tree.Closed rw.get ∧ K rw ∧ brs = mountBranches rw ro) ∧
    OnUpper ro fs (· = rw) m) (Trial.Triple.call fun m hm => ⟨hJ m hm, ?_⟩) fun brs => ?_
  · obtain ⟨rw, hbr, hc, hfs, hrw⟩ := hm
    exact ⟨rw, ⟨hc, hrw, hbr⟩, rw, hbr, hc, hfs, rfl⟩
  · refine Spec.exists fun rw => Spec.pre ?_
    rintro ⟨hc, hrw, rfl⟩
    exact h rw hc hrw

/-- An operation on the writable branch. -/
theorem Spec.lower (op : LowerOp) (hJ : ∀ m, OnUpper ro fs K m → J m)
    (hK : ∀ rw rw', Tree.Closed rw.get → K rw → Files.get rw' = op.effect rw.get → L rw') :
    Spec O J (OnUpper ro fs K) (lower 0 op) (fun _ => OnUpper ro fs L) fun _ m =>
      OnUpper ro fs K m ∧ ((∀ rw, Tree.Closed rw.get → K rw → op.Ready rw.get) → Faulty fs) := by
  refine Trial.Triple.call fun m hm => ⟨hJ m hm, ?_⟩
  obtain ⟨rw, hbr, hc, hfs, hrw⟩ := hm
  have hgo : ∀ m' : Mount, m'.branches = mountBranches rw ro → m'.faults <:+ fs →
      Trial.onResult (fun _ => OnUpper ro fs L) (fun _ m => OnUpper ro fs K m ∧
        ((∀ rw, Tree.Closed rw.get → K rw → op.Ready rw.get) → Faulty fs))
        (Reply.unit (m'.lower 0 op).1) (m'.lower 0 op).2 := by
    intro m' hbr' hfs'
    have hbranch : m'.branches[0]? = some { perm := .rw, files := rw } := by rw [hbr']; rfl
    simp only [Mount.lower, hbranch, auBrWritable, decide_true, if_true]
    cases hexec : op.exec rw with
    | error e =>
      -- it fails without a fault only where it is not ready
      refine ⟨⟨rw, hbr', hc, hfs', hrw⟩, fun hready => ?_⟩
      obtain ⟨fs', hok, -⟩ := LowerOp.exec_of_ready (hready rw hc hrw)
      rw [hok] at hexec
      cases hexec
    | ok fs' =>
      obtain ⟨hget, hclosed⟩ := LowerOp.exec_ok hc hexec
      exact ⟨fs', by simp [hbr', mountBranches], hclosed, hfs', hK rw fs' hc hrw hget⟩
  cases hq : m.faults with
  | nil =>
    simp only [step, Mount.fault, hq]
    exact hgo m hbr hfs
  | cons f rest =>
    rw [hq] at hfs
    have hrest : rest <:+ fs := (List.suffix_cons f rest).trans hfs
    cases f with
    | none =>
      simp only [step, Mount.fault, hq]
      exact hgo _ hbr hrest
    | some e =>
      simp only [step, Mount.fault, hq]
      exact ⟨⟨rw, hbr, hc, hrest, hrw⟩, fun _ => ⟨e, hfs.subset List.mem_cons_self⟩⟩

theorem dInode_spec {p : Path} (hJ : ∀ m, OnUpper ro fs K m → J m) :
    Spec O J (OnUpper ro fs K) (dInode 0 p) (fun x => OnUpper ro fs fun rw => K rw ∧ rw.get p = x)
      fun _ _ => False := by
  refine Spec.read hJ fun rw _ hrw => ?_
  refine Trial.Triple.pure fun m hm => hm.mono ?_
  rintro rw rfl
  exact ⟨hrw, rfl⟩

theorem lkupOne_spec {p : Path} (hJ : ∀ m, OnUpper ro fs K m → J m) :
    Spec O J (OnUpper ro fs K) (lkupOne 0 p) (fun x => OnUpper ro fs fun rw => K rw ∧ rw.get p = x)
      fun _ m => OnUpper ro fs K m ∧ Faulty fs := by
  refine Trial.Triple.bind _ (Spec.check hJ) fun _ => ?_
  exact (dInode_spec hJ).mono_err fun _ _ h => h.elim

/-- A free name is found to be free. -/
theorem auLkupNeg_spec {dir : Path} {name : String} (hJ : ∀ m, OnUpper ro fs K m → J m)
    (hfree : ∀ rw, K rw → rw.get (dir ++ [name]) = none) :
    Spec O J (OnUpper ro fs K) (auLkupNeg 0 dir name) (fun _ => OnUpper ro fs K)
      fun _ m => OnUpper ro fs K m ∧ Faulty fs := by
  refine Trial.Triple.bind _ (lkupOne_spec hJ) fun x => ?_
  refine Trial.Triple.ite (fun hx => ?_) fun _ =>
    Trial.Triple.pure fun m hm => hm.mono fun _ h => h.1
  refine Trial.Triple.throw fun m hm => ?_
  obtain ⟨rw, -, -, -, hK, hget⟩ := hm
  rw [← hget, hfree rw hK] at hx
  cases hx

end Commands

/-! ## Temporary names -/

/-- The upper tree where it is visible. -/
def Shows (T : Tree) (rw : Files) : Prop := vis rw.get = T

/-- The same, with what is at a temporary name; nothing is below it. -/
def Tmp (T : Tree) (t : Path) (x : Option Node) (rw : Files) : Prop :=
  vis rw.get = T ∧ rw.get t = x ∧ ∀ r, r ≠ [] → rw.get (t ++ r) = none

/-- A name that no entry of the union has. -/
def TmpName (w : String) : Prop := hasWhPfx w = true ∧ ¬ Plain w

theorem tmpName_whtmpName (n : String) (c : ℕ) : TmpName (whtmpName n c) := by
  refine ⟨hasWhPfx_whName _, not_plain_whName_whName fun h => ?_⟩
  -- the name ends in a dot and four digits
  have hlen := congrArg (fun n => n.toList.length) h
  simp [hex4] at hlen

theorem TmpName.not_visible {w : String} (h : TmpName w) (s : Path) : ¬ Visible (s ++ [w]) :=
  fun hvis => h.2 (visible_concat.mp hvis).2

section Temporary

variable {O : Prop} {ro : Files} {fs : List (Option Errno)} {J : Mount → Prop} {T : Tree} {s : Path}
  {n w : String}
  {x : Node}

theorem Tmp.shows {t : Path} {x : Option Node} {rw : Files} (h : Tmp T t x rw) : Shows T rw := h.1

theorem whtmpTry_spec (hJ : ∀ m, OnUpper ro fs (Shows T) m → J m) (k : ℕ) :
    Spec O J (OnUpper ro fs (Shows T)) (whtmpTry 0 s n k)
      (fun w m => TmpName w ∧ OnUpper ro fs (Tmp T (s ++ [w]) none) m)
      fun _ m => OnUpper ro fs (Shows T) m ∧ Faulty fs := by
  induction k with
  | zero => exact Trial.Triple.halt fun m hm => ⟨hJ m hm, nofun⟩
  | succ k ih =>
    refine Trial.Triple.bind _ ((Spec.tick hJ).mono_err fun _ _ h => h.elim) fun c => ?_
    refine Trial.Triple.bind _ (lkupOne_spec hJ) fun x => ?_
    refine Trial.Triple.ite (fun hx => ?_) fun _ => ?_
    · -- a free name
      refine Trial.Triple.pure fun m hm => ⟨tmpName_whtmpName n c, ?_⟩
      obtain ⟨rw, hbr, hc, hfs, hshow, hget⟩ := hm
      have hnone : rw.get (s ++ [whtmpName n c]) = none := by
        rw [hget]
        exact Option.isNone_iff_eq_none.mp hx
      exact ⟨rw, hbr, hc, hfs, hshow, hnone, fun r hr => hc.eq_none (by simp [hnone]) hr⟩
    · exact ih.mono_pre fun m hm => hm.mono fun _ h => h.1

theorem auWhtmpLkup_spec (hJ : ∀ m, OnUpper ro fs (Shows T) m → J m) (hn : NameOk n) :
    Spec O J (OnUpper ro fs (Shows T)) (auWhtmpLkup 0 s n)
      (fun w m => TmpName w ∧ OnUpper ro fs (Tmp T (s ++ [w]) none) m)
      fun _ m => OnUpper ro fs (Shows T) m ∧ Faulty fs := by
  have heq : auWhtmpLkup 0 s n = whtmpTry 0 s n 3 := by
    rw [auWhtmpLkup, if_neg (Nat.not_lt.mpr hn.2)]
  rw [heq]
  exact whtmpTry_spec hJ 3

/-- An operation on the temporary entry itself. -/
theorem Tmp.update {x : Option Node} {v : Option Node} {rw rw' : Files} (hw : TmpName w)
    (h : Tmp T (s ++ [w]) x rw) (hget : rw'.get = Function.update rw.get (s ++ [w]) v) :
    Tmp T (s ++ [w]) v rw' := by
  obtain ⟨hvis, -, hnone⟩ := h
  refine ⟨?_, ?_, fun r hr => ?_⟩
  · rw [hget, vis_update_hidden (hw.not_visible s), hvis]
  · rw [hget, Function.update_self]
  · rw [hget, Function.update_of_ne (by simpa using hr)]
    exact hnone r hr

theorem Shows.get {p : Path} {rw : Files} (h : Shows T rw) (hp : Visible p) : rw.get p = T p := by
  rw [← h, vis_of hp]

section Cpup

variable (hJ : ∀ m, OnUpper ro fs (Shows T) m → J m) (hs : PathOk s) (hdir : T s = some .dir)
  (hw : TmpName w)
include hJ hs hdir hw

/-- The temporary entry is made. -/
theorem createTmp_spec (x : Node) :
    Spec O J (OnUpper ro fs (Tmp T (s ++ [w]) none)) (lower 0 (.create (s ++ [w]) x))
      (fun _ => OnUpper ro fs (Tmp T (s ++ [w]) (some x)))
      fun _ m => (∃ y, OnUpper ro fs (Tmp T (s ++ [w]) y) m) ∧ Faulty fs := by
  refine (Spec.lower _ (fun m hm => hJ m (hm.mono fun _ h => h.shows))
    fun rw rw' hc hK hget => hK.update hw hget).mono_err fun _ m h =>
    ⟨⟨none, h.1⟩, h.2 fun rw hc hK => ?_⟩
  refine ⟨hK.2.1, ?_⟩
  rw [List.dropLast_concat, hK.shows.get (visible_of_pathOk hs), hdir]

theorem cpupEntry_spec (x : Node) :
    Spec O J (OnUpper ro fs (Tmp T (s ++ [w]) none)) (cpupEntry 0 (s ++ [w]) x)
      (fun _ => OnUpper ro fs (Tmp T (s ++ [w]) (some x)))
      fun _ m => (∃ y, OnUpper ro fs (Tmp T (s ++ [w]) y) m) ∧ Faulty fs := by
  have hJ' : ∀ {y m}, OnUpper ro fs (Tmp T (s ++ [w]) y) m → J m := fun hm =>
    hJ _ (hm.mono fun _ h => h.shows)
  have hcheck : ∀ y, Spec O J (OnUpper ro fs (Tmp T (s ++ [w]) y)) check
      (fun _ => OnUpper ro fs (Tmp T (s ++ [w]) y))
      fun _ m => (∃ y, OnUpper ro fs (Tmp T (s ++ [w]) y) m) ∧ Faulty fs := fun y =>
    (Spec.check fun m => hJ').mono_err fun _ _ h => ⟨⟨y, h.1⟩, h.2⟩
  cases x with
  | file t =>
    refine Trial.Triple.bind _ (createTmp_spec hJ hs hdir hw (.file [])) fun _ => ?_
    refine Trial.Triple.ite (fun _ => ?_) fun ht => ?_
    · refine Trial.Triple.bind _ (hcheck _) fun _ => ?_
      refine Trial.Triple.bind _ (hcheck _) fun _ => ?_
      refine Trial.Triple.bind _ ((Spec.lower (.write _ t) (fun m => hJ')
        fun rw rw' hc hK hget => hK.update hw hget).mono_err fun _ m h =>
        ⟨⟨_, h.1⟩, h.2 fun rw hc hK => ⟨[], hK.2.1⟩⟩) fun _ => ?_
      exact hcheck _
    · have ht : t = [] := not_not.mp ht
      subst ht
      exact Trial.Triple.pure fun _ h => h
  | dir => exact createTmp_spec hJ hs hdir hw .dir
  | link t =>
    refine Trial.Triple.bind _ (hcheck _) fun _ => ?_
    exact createTmp_spec hJ hs hdir hw (.link t)
  | special => exact createTmp_spec hJ hs hdir hw .special

variable (hn : NameOk n) (hnone : T (s ++ [n]) = none)
include hn hnone

/-- The temporary entry gets its name. -/
theorem auDoRenAfterCpup_spec (x : Node) :
    Spec O J (OnUpper ro fs (Tmp T (s ++ [w]) (some x))) (auDoRenAfterCpup 0 s n w)
      (fun _ => OnUpper ro fs (Shows (Function.update T (s ++ [n]) (some x))))
      fun _ m => (∃ y, OnUpper ro fs (Tmp T (s ++ [w]) y) m) ∧ Faulty fs := by
  have hJ' : ∀ m, OnUpper ro fs (Tmp T (s ++ [w]) (some x)) m → J m := fun m hm =>
    hJ m (hm.mono fun _ h => h.shows)
  have hp : PathOk (s ++ [n]) := pathOk_concat.mpr ⟨hs, hn⟩
  have hne : w ≠ n := by
    rintro rfl
    have hwh := hw.1
    rw [hn.1] at hwh
    cases hwh
  have hprefix : ∀ {a b : String}, a ≠ b → ¬ s ++ [a] <+: s ++ [b] := by
    intro a b hab hle
    exact hab (by simpa using hle)
  refine Trial.Triple.bind (fun _ => OnUpper ro fs (Tmp T (s ++ [w]) (some x))) ?_ fun _ => ?_
  · refine (auLkupNeg_spec hJ' fun rw hK => ?_).mono_err fun _ _ h => ⟨⟨_, h.1⟩, h.2⟩
    rw [hK.shows.get (visible_of_pathOk hp), hnone]
  · refine (Spec.lower (.rename _ _) hJ' fun rw rw' hc hK hget => ?_).mono_err fun _ m h =>
      ⟨⟨_, h.1⟩, h.2 fun rw hc hK => ?_⟩
    · have hfree : rw.get (s ++ [n]) = none := by
        rw [hK.shows.get (visible_of_pathOk hp), hnone]
      rw [Shows, hget, vis_rename_in hw.1 hw.2 hs hn hK.2.2
        (fun r hr => hc.eq_none (by simp [hfree]) hr), hK.1, hK.2.1]
    · refine ⟨by simp [hK.2.1], hprefix hne, hprefix hne.symm, ?_, .inl ?_⟩
      · rw [List.dropLast_concat, hK.shows.get (visible_of_pathOk hs), hdir]
      · rw [hK.shows.get (visible_of_pathOk hp), hnone]

theorem auCpupSingle_spec (x : Node) :
    Spec O J (OnUpper ro fs (Tmp T (s ++ [w]) none)) (auCpupSingle 0 s n w x)
      (fun _ => OnUpper ro fs (Shows (Function.update T (s ++ [n]) (some x))))
      fun _ m => OnUpper ro fs (Shows T) m ∧ Faulty fs := by
  have hJ' : ∀ {y m}, OnUpper ro fs (Tmp T (s ++ [w]) y) m → J m := fun hm =>
    hJ _ (hm.mono fun _ h => h.shows)
  have hcheck : Spec O J (OnUpper ro fs (Tmp T (s ++ [w]) (some x))) check
      (fun _ => OnUpper ro fs (Tmp T (s ++ [w]) (some x)))
      fun _ m => (∃ y, OnUpper ro fs (Tmp T (s ++ [w]) y) m) ∧ Faulty fs :=
    (Spec.check fun m => hJ').mono_err fun _ _ h => ⟨⟨_, h.1⟩, h.2⟩
  refine Spec.attempt_bind (fun _ => OnUpper ro fs (Shows (Function.update T (s ++ [n]) (some x))))
    (fun _ m => (∃ y, OnUpper ro fs (Tmp T (s ++ [w]) y) m) ∧ Faulty fs) ?_
    (fun _ => ?_) fun e => ?_
  · refine Trial.Triple.bind _ (cpupEntry_spec hJ hs hdir hw x) fun _ => ?_
    refine Trial.Triple.bind _ hcheck fun _ => ?_
    have hren := auDoRenAfterCpup_spec (O := O) hJ hs hdir hw hn hnone x
    exact Trial.Triple.ite (fun _ => Trial.Triple.bind _ hcheck fun _ => hren) fun _ => hren
  · exact Trial.Triple.pure fun _ h => h
  · -- the broken entry is removed
    refine Trial.Triple.bind (fun _ m => OnUpper ro fs (Shows T) m ∧ Faulty fs) ?_ fun there => ?_
    · refine ((dInode_spec hJ).frame (φ := Faulty fs)).mono ?_
        (fun _ _ h => ⟨h.1.mono fun _ h => h.1, h.2⟩) (fun _ _ h => h.1.elim) fun _ _ h => h
      rintro m ⟨⟨y, hm⟩, hf⟩
      exact ⟨hm.mono fun _ h => h.shows, hf⟩
    · refine Trial.Triple.ite (fun _ => ?_) fun _ => Trial.Triple.throw fun _ h => h
      refine Spec.attempt_bind (fun _ m => OnUpper ro fs (Shows T) m ∧ Faulty fs)
        (fun _ m => OnUpper ro fs (Shows T) m ∧ Faulty fs) ?_
        (fun _ => Trial.Triple.throw fun _ h => h) fun _ => Trial.Triple.throw_bind fun _ h => h
      refine ((Spec.lower _ hJ fun rw rw' hc hK hget => ?_).frame (φ := Faulty fs)).mono_err
        fun _ _ h => ⟨h.1.1, h.2⟩
      have hget' : rw'.get = Function.update rw.get (s ++ [w]) none := by
        rw [hget]
        split_ifs <;> rfl
      rw [Shows, hget', vis_update_hidden (hw.not_visible s)]
      exact hK

end Cpup

/-- **An entry is copied up**, or the tree shows as before. -/
theorem auCpupSimple_spec (hJ : ∀ m, OnUpper ro fs (Shows T) m → J m) (hs : PathOk s)
    (hdir : T s = some .dir) (hn : NameOk n) (hnone : T (s ++ [n]) = none) (x : Node) :
    Spec O J (OnUpper ro fs (Shows T)) (auCpupSimple 0 s n x)
      (fun _ => OnUpper ro fs (Shows (Function.update T (s ++ [n]) (some x))))
      fun _ m => OnUpper ro fs (Shows T) m ∧ Faulty fs := by
  refine Trial.Triple.bind _ (auWhtmpLkup_spec hJ hn) fun w => Spec.pre fun hw => ?_
  exact auCpupSingle_spec hJ hs hdir hw hn hnone x

/-- The dentry of an entry that shows. -/
theorem dentryOf_spec (hJ : ∀ m, OnUpper ro fs (Shows T) m → J m) (hu : Upper T)
    (hl : Tree.Closed ro.get) {p : Path} (hp : union T ro.get p ≠ none) :
    Spec O J (OnUpper ro fs (Shows T)) (dentryOf p)
      (fun d m => d.At T ro.get p ∧ OnUpper ro fs (Shows T) m) fun _ _ => False := by
  refine Spec.read hJ fun rw hc hrw => ?_
  subst hrw
  have hu' : Upper rw.get := upper_vis.mp ⟨hu, hc⟩
  rw [union_vis] at hp
  have hwalk := (union_closed hu'.closed).walk_eq (fun _ => pathOk_of_union) (s := []) hp
  have hres := resolveFrom_at hu' hl pathOk_nil rootDentry_at p (by simp)
  rw [hwalk] at hres
  obtain ⟨hok, -, d, hd, hat⟩ := hres
  rw [show resolve (mountBranches rw ro) p = .ok d from hd]
  refine Trial.Triple.pure fun m hm => ⟨(at_vis hok).mpr hat, hm.mono ?_⟩
  rintro rw rfl
  rfl

end Temporary

/-! ## Directories copied up -/

/-- Directories down to a path were copied up; the union is the same. -/
structure CopiedUp (l : Tree) (s : Path) (T T' : Tree) : Prop where
  upper : Upper T'
  union : union T' l = union T l
  off : ∀ q, ¬ q <+: s → T' q = T q

theorem CopiedUp.refl {l T : Tree} {s : Path} (hu : Upper T) : CopiedUp l s T T :=
  ⟨hu, rfl, fun _ _ => rfl⟩

/-- An entry of the lower branch is no dot. -/
theorem LowerTree.not_isDot {u l : Tree} (hl : LowerTree l) {s : Path} {n : String}
    (hnone : u (s ++ [n]) = none) (h : Aufs.union u l (s ++ [n]) ≠ none) : ¬ isDot n := by
  have hok := pathOk_of_union h
  have hlow : l (s ++ [n]) ≠ none := by
    by_cases hb : Below u l (s ++ [n])
    · rwa [union_of_below hok hnone hb] at h
    · exact absurd (union_of_not_below hnone hb) h
  exact (hl.names _ hlow).2 n (by simp)

/-- An entry that is copied up into a directory that is there. -/
theorem upper_copyup {T l : Tree} {s : Path} {n : String} (hu : Upper T) (hl : LowerTree l)
    (hdir : T s = some .dir) (hnone : T (s ++ [n]) = none) {x : Node}
    (hx : Aufs.union T l (s ++ [n]) = some x) :
    Upper (Function.update T (s ++ [n]) (some x)) := by
  have hok := pathOk_of_union (p := s ++ [n]) (u := T) (l := l) (by simp [hx])
  obtain ⟨hs, hn⟩ := pathOk_concat.mp hok
  have hwh : T (s ++ [whName n]) = none := by
    have hb : Below T l (s ++ [n]) := by
      by_contra hb
      rw [union_of_not_below hnone hb] at hx
      cases hx
    exact (below_concat.mp hb).2
  refine (ChangeAt.refl.update hn _).upper hu hn (hl.not_isDot hnone (by simp [hx]))
    (hu.closed.update hdir (.inr fun m => hu.closed.eq_none (by simp [hnone]) (by simp)))
    fun _ hne => ?_
  rw [Function.update_of_ne (by simpa using (ne_whName hn.1 n).symm), hwh] at hne
  exact absurd rfl hne

theorem CopiedUp.step {l T T' : Tree} {s pre : Path} {n : String} (h : CopiedUp l s T T')
    (hl : LowerTree l) (hle : pre ++ [n] <+: s) (hdir : T' pre = some .dir)
    (hnone : T' (pre ++ [n]) = none) (hx : Aufs.union T' l (pre ++ [n]) = some .dir) :
    CopiedUp l s T (Function.update T' (pre ++ [n]) (some .dir)) := by
  have hok := pathOk_of_union (p := pre ++ [n]) (u := T') (l := l) (by simp [hx])
  refine ⟨upper_copyup h.upper hl hdir hnone hx, ?_, fun q hq => ?_⟩
  · rw [union_copyup h.upper.closed (pathOk_concat.mp hok).2 hnone hx, h.union]
  · rw [Function.update_of_ne (by rintro rfl; exact hq hle)]
    exact h.off q hq

section Directories

variable {O : Prop} {ro : Files} {fs : List (Option Errno)} {J : Mount → Prop} {T : Tree} {s : Path}

theorem auCpDirs_spec (hl : LowerTree ro.get) (hdir : union T ro.get s = some .dir)
    (hJ : ∀ T' m, CopiedUp ro.get s T T' → OnUpper ro fs (Shows T') m → J m) (rest pre : Path)
    (hs : pre ++ rest = s) :
    Spec O J
      (fun m => ∃ T', (CopiedUp ro.get s T T' ∧ T' pre = some .dir) ∧ OnUpper ro fs (Shows T') m)
      (auCpDirs 0 pre rest)
      (fun _ m => ∃ T', (CopiedUp ro.get s T T' ∧ T' s = some .dir) ∧ OnUpper ro fs (Shows T') m)
      fun _ m => (∃ T', CopiedUp ro.get s T T' ∧ OnUpper ro fs (Shows T') m) ∧ Faulty fs := by
  induction rest generalizing pre with
  | nil =>
    rw [List.append_nil] at hs
    subst hs
    exact Trial.Triple.pure fun _ h => h
  | cons n rest ih =>
    have ih' := ih (pre ++ [n]) (by simpa using hs)
    have hle : pre ++ [n] <+: s := ⟨rest, by simpa using hs⟩
    refine Spec.exists fun T' => Spec.pre fun ⟨hcp, hpre⟩ => ?_
    have hJ' : ∀ m, OnUpper ro fs (Shows T') m → J m := fun m => hJ T' m hcp
    have hT' : union T' ro.get (pre ++ [n]) = some .dir := by
      have hsdir : union T' ro.get (pre ++ [n] ++ rest) = some .dir := by
        rw [hcp.union, show pre ++ [n] ++ rest = s by simpa using hs, hdir]
      by_cases hrest : rest = []
      · rwa [hrest, List.append_nil] at hsdir
      · refine (union_closed hcp.upper.closed).dir_above ?_ hrest
        rw [hsdir]
        exact Option.some_ne_none _
    have hok := pathOk_of_union (p := pre ++ [n]) (u := T') (l := ro.get) (by simp [hT'])
    refine Trial.Triple.bind _ ((dentryOf_spec hJ' hcp.upper hl.closed (by simp [hT'])).mono_err
      fun _ _ h => h.elim) fun d =>
        Spec.pre fun hd => ?_
    have hptr : d.hDptr 0 = (T' (pre ++ [n])).isSome := by
      rw [Dentry.hDptr, hd.lower]
      cases T' (pre ++ [n]) <;> cases lowPart T' ro.get (pre ++ [n]) <;> simp
    refine Trial.Triple.ite (fun hmiss => ?_) fun hthere => ?_
    · -- the directory is copied up
      have hnone : T' (pre ++ [n]) = none := by simpa [hptr] using hmiss
      have hstep := hcp.step hl hle hpre hnone hT'
      refine Trial.Triple.bind _ ((Spec.check hJ').mono_err fun _ _ h => ⟨⟨T', hcp, h.1⟩, h.2⟩)
        fun _ => ?_
      have hfind : auSioCpupSimple 0 pre n d = auCpupSimple 0 pre n .dir := by
        simp [auSioCpupSimple, hd.lower_of_none hok hnone hT']
      obtain ⟨hpreok, hn⟩ := pathOk_concat.mp hok
      rw [hfind]
      refine Trial.Triple.bind _ ((auCpupSimple_spec hJ' hpreok hpre hn hnone .dir).mono_err
        fun _ _ h => ⟨⟨T', hcp, h.1⟩, h.2⟩)
        fun _ => ?_
      exact ih'.mono_pre fun m hm => ⟨_, ⟨hstep, Function.update_self ..⟩, hm⟩
    · have hsome : T' (pre ++ [n]) = some .dir := by
        rcases upper_or_through hT' with hx | ⟨hx, -⟩
        · exact hx
        · simp [hptr, hx] at hthere
      exact ih'.mono_pre fun m hm => ⟨T', ⟨hcp, hsome⟩, hm⟩

/-- **The directories down to a path are copied up**; the union stays as it is. -/
theorem auCpupDirs_spec (hu : Upper T) (hl : LowerTree ro.get)
    (hdir : union T ro.get s = some .dir)
    (hJ : ∀ T' m, CopiedUp ro.get s T T' → OnUpper ro fs (Shows T') m → J m) :
    Spec O J (OnUpper ro fs (Shows T)) (auCpupDirs 0 s)
      (fun _ m => ∃ T', (CopiedUp ro.get s T T' ∧ T' s = some .dir) ∧ OnUpper ro fs (Shows T') m)
      fun _ m => (∃ T', CopiedUp ro.get s T T' ∧ OnUpper ro fs (Shows T') m) ∧ Faulty fs :=
  (auCpDirs_spec hl hdir hJ s [] rfl).mono_pre fun _ hm =>
  ⟨T, ⟨CopiedUp.refl hu, hu.closed.root⟩, hm⟩

end Directories

/-! ## Policies -/

section Policies

variable {O : Prop} {ro : Files} {fs : List (Option Errno)} {J : Mount → Prop} {T l : Tree}
  {s : Path} {n : String}
  {d parent : Dentry}

theorem Dentry.At.dbstart_of_upper {p : Path} (h : d.At T l p) (hT : T p ≠ none) :
    d.dbstart = some 0 := by
  obtain ⟨x, hx⟩ := Option.ne_none_iff_exists'.mp hT
  simp [Dentry.dbstart, h.lower, hx]

theorem Dentry.At.dbstart_of_lower {p : Path} (h : d.At T l p) (hp : PathOk p) (hT : T p = none)
    (hx : union T l p ≠ none) : d.dbstart = some 1 := by
  obtain ⟨x, hx⟩ := Option.ne_none_iff_exists'.mp hx
  simp [Dentry.dbstart, h.lower_of_none hp hT hx]

theorem Dentry.At.dbstart_of_none (h : d.At T l (s ++ [n])) (hp : PathOk (s ++ [n]))
    (hx : union T l (s ++ [n]) = none) :
    d.dbstart = some (if T s = some .dir then 0 else 1) := by
  have hT : T (s ++ [n]) = none := by
    by_contra hT
    obtain ⟨x, hT⟩ := Option.ne_none_iff_exists'.mp hT
    rw [union_of_upper hp hT] at hx
    cases hx
  have hlow : lowPart T l (s ++ [n]) = none := by
    by_cases hb : Below T l (s ++ [n])
    · rw [lowPart, if_pos ⟨hb, .inl hT⟩, ← union_of_below hp hT hb, hx]
    · exact if_neg fun h => hb h.1
  have hneg := h.neg hT hlow
  rw [List.dropLast_concat] at hneg
  simp [Dentry.dbstart, h.lower, hT, hlow, hneg]

theorem writable_zero (rw ro : Files) : writable (mountBranches rw ro) 0 = true := rfl

theorem writable_one (rw ro : Files) : writable (mountBranches rw ro) 1 = false := rfl

theorem auWbrNonopq_spec (hJ : ∀ m, OnUpper ro fs (Shows T) m → J m) (hu : Upper T)
    (hl : Tree.Closed ro.get) (hs : union T ro.get s ≠ none) :
    Spec O J (OnUpper ro fs (Shows T)) (auWbrNonopq s 0)
      (fun b m => b = 0 ∧ OnUpper ro fs (Shows T) m) fun _ _ => False := by
  have hmem : ∀ p ∈ s.inits.dropLast, union T ro.get p ≠ none := by
    intro p hp
    obtain ⟨r, rfl⟩ := (List.mem_inits p s).mp (List.mem_of_mem_dropLast hp)
    by_cases hr : r = []
    · rwa [hr, List.append_nil] at hs
    · rw [(union_closed hu.closed).dir_above hs hr]
      exact Option.some_ne_none _
  rw [auWbrNonopq]
  generalize s.inits.dropLast = ps at hmem
  induction ps with
  | nil => exact Trial.Triple.pure fun m hm => ⟨rfl, hm⟩
  | cons p ps ih =>
    rw [List.foldlM_cons]
    refine Trial.Triple.bind (fun b m => b = 0 ∧ OnUpper ro fs (Shows T) m) ?_ fun b =>
      Spec.pre fun hb => ?_
    · refine Trial.Triple.bind _ (dentryOf_spec hJ hu hl (hmem p List.mem_cons_self)) fun d => ?_
      refine Trial.Triple.pure fun m hm => ⟨?_, hm.2⟩
      cases d.bdiropq <;> simp
    · subst hb
      exact ih fun q hq => hmem q (List.mem_cons_of_mem _ hq)

/-- **The policies choose the writable branch.** -/
theorem auWbrCreateTdp_spec (hJ : ∀ m, OnUpper ro fs (Shows T) m → J m) (hu : Upper T)
    (hl : Tree.Closed ro.get) (hs : union T ro.get s = some .dir) (hparent : parent.At T ro.get s)
    (hd : d.At T ro.get (s ++ [n])) (hp : PathOk (s ++ [n])) :
    Spec O J (OnUpper ro fs (Shows T)) (auWbrCreateTdp s parent d)
      (fun b m => b = 0 ∧ OnUpper ro fs (Shows T) m) fun _ _ => False := by
  refine Spec.read hJ fun rw hc hrw => ?_
  subst hrw
  have hback : ∀ m, OnUpper ro fs (· = rw) m → OnUpper ro fs (Shows (vis rw.get)) m := fun m hm =>
    hm.mono (by rintro rw rfl; rfl)
  have hstart : d.dbstart = some 0 ∨ d.dbstart = some 1 := by
    by_cases hT : vis rw.get (s ++ [n]) = none
    · by_cases hx : union (vis rw.get) ro.get (s ++ [n]) = none
      · rw [hd.dbstart_of_none hp hx]
        split_ifs
        · exact .inl rfl
        · exact .inr rfl
      · exact .inr (hd.dbstart_of_lower hp hT hx)
    · exact .inl (hd.dbstart_of_upper hT)
  rcases hstart with h0 | h1
  · simp only [h0, Option.getD_some, writable_zero, if_true]
    exact Trial.Triple.pure fun m hm => ⟨rfl, hback m hm⟩
  · simp only [h1, Option.getD_some, writable_one, Bool.false_eq_true, if_false]
    rcases upper_or_through hs with hx | ⟨hx, -⟩
    · -- the writable branch has the parent
      have hfind : parent.lower.find? (fun x => x.1 < 1 && writable (mountBranches rw ro) x.1) =
          some (0, .dir) := by
        rw [hparent.lower, hx]
        simp [writable_zero]
      rw [hfind]
      exact Trial.Triple.pure fun m hm => ⟨rfl, hback m hm⟩
    · have hfind : parent.lower.find? (fun x => x.1 < 1 && writable (mountBranches rw ro) x.1) =
          none := by
        rw [hparent.lower_of_none (pathOk_concat.mp hp).1 hx hs]
        simp
      rw [hfind]
      exact (auWbrNonopq_spec hJ hu hl (by simp [hs])).mono_pre hback

end Policies

end Meta3dr.Aufs
