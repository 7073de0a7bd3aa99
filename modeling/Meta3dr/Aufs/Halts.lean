import Meta3dr.Aufs.Ops

/-!
# How a call can stop the kernel

The `BUG()` of an operation is that of the temporary names: three of them in a row are taken, for the
entry itself or for a directory above it. This is so from every state. And a call depends on no fault
but on those that come due while it runs, so a mount with these faults only takes the same steps.

## Main definitions

* `Taken p m`: three temporary names in a row are taken for an entry on the path
* `BugOnly p t`: a program meets a `BUG()` only there

## Main results

* `perform_bugOnly`: the `BUG()` of a call
* `cut_faults`, `run_faults`: the faults that a program has used
-/

namespace Meta3dr.Aufs

open Shell Program

/-- In some branch three temporary names in a row are taken for an entry on the path. -/
def Taken (p : Path) (m : Mount) : Prop :=
  ∃ (i : ℕ) (s : Path) (n : String) (c : ℕ), s ++ [n] <+: p ∧ ∀ j < 3, ∃ br,
    m.branches[i]? = some br ∧ br.files.get (s ++ [whtmpName n (c + j)]) ≠ none

theorem Taken.mono {p q : Path} {m : Mount} (h : Taken p m) (hpq : p <+: q) : Taken q m := by
  obtain ⟨i, s, n, c, hp, htaken⟩ := h
  exact ⟨i, s, n, c, hp.trans hpq, htaken⟩

/-- From any mount, a program meets a `BUG()` only where three names are taken. -/
def BugOnly {α : Type} (p : Path) (t : Exec α) : Prop :=
  Trial.Triple step (fun _ _ => True) (fun _ => True) t (fun _ _ => True) (fun _ _ => True)
    fun x m => x = .bug → Taken p m

namespace BugOnly

variable {α β : Type} {p q : Path} {t u : Exec α}

theorem pure (a : α) : BugOnly p (Pure.pure a : Exec α) := Trial.Triple.pure fun _ _ => trivial

theorem throw (e : Errno) : BugOnly p (MonadExceptOf.throw e : Exec α) :=
  Trial.Triple.throw fun _ _ => trivial

theorem throw_bind (e : Errno) (f : α → Exec β) :
    BugOnly p ((MonadExceptOf.throw e : Exec α) >>= f) :=
  Trial.Triple.throw_bind fun _ _ => trivial

theorem oops : BugOnly p (Trial.halt .oops : Exec α) := Trial.Triple.halt fun _ _ => nofun

theorem call (c : Cmd) (read : Reply → Except Errno α) : BugOnly p (Trial.call c read) :=
  Trial.Triple.call fun m _ => ⟨trivial, by cases read (step m c).1 <;> trivial⟩

theorem lower (i : ℕ) (op : LowerOp) : BugOnly p (lower i op) := call _ _

theorem check : BugOnly p check := call _ _

theorem read : BugOnly p Aufs.read := call _ _

theorem bind {f : α → Exec β} (h : BugOnly p t) (hf : ∀ a, BugOnly p (f a)) :
    BugOnly p (t >>= f) := Trial.Triple.bind _ h hf

theorem attempt (h : BugOnly p t) : BugOnly p (Trial.attempt t) := Trial.Triple.attempt h

theorem ite {b : Prop} [Decidable b] (ht : b → BugOnly p t) (hu : ¬ b → BugOnly p u) :
    BugOnly p (if b then t else u) := Trial.Triple.ite ht hu

theorem mono (h : BugOnly p t) (hpq : p <+: q) : BugOnly q t :=
  Trial.Triple.mono h (fun _ h => h) (fun _ _ h => h) (fun _ _ h => h) fun _ _ hx hbug =>
    (hx hbug).mono hpq

theorem known (x : Except Errno α) : BugOnly p (known x) := by
  cases x with
  | ok a => exact pure a
  | error e => exact throw e

theorem forM {l : List β} {f : β → Exec PUnit} (h : ∀ b ∈ l, BugOnly p (f b)) :
    BugOnly p (l.forM f) := Trial.Triple.forM h

theorem foldlM {l : List β} {f : α → β → Exec α} (h : ∀ a b, BugOnly p (f a b)) (a : α) :
    BugOnly p (l.foldlM f a) := by
  induction l generalizing a with
  | nil => exact pure a
  | cons b l ih => exact bind (h a b) ih

theorem dentryOf (q : Path) : BugOnly p (dentryOf q) := bind read fun _ => known _

theorem dInode (i : ℕ) (q : Path) : BugOnly p (dInode i q) := bind read fun _ => pure _

theorem lkupOne (i : ℕ) (q : Path) : BugOnly p (lkupOne i q) := bind check fun _ => dInode i q

end BugOnly

/-! ## Temporary names -/

/-- The digits of a counter are those of its 16 bits. -/
theorem hex4_congr {c d : ℕ} (h : c % 2 ^ 16 = d % 2 ^ 16) : hex4 c = hex4 d := by
  have h₁ : c / 4096 % 16 = d / 4096 % 16 := by omega
  have h₂ : c / 256 % 16 = d / 256 % 16 := by omega
  have h₃ : c / 16 % 16 = d / 16 % 16 := by omega
  have h₄ : c % 16 = d % 16 := by omega
  rw [hex4, hex4, h₁, h₂, h₃, h₄]

section Names

variable {i c : ℕ} {s : Path} {n : String}

/-- The last `k` temporary names are taken, from the one with the number `c` on. -/
def Tried (i : ℕ) (s : Path) (n : String) (c k : ℕ) (m : Mount) : Prop :=
  m.cnt % 2 ^ 16 = (c + k) % 2 ^ 16 ∧ ∀ j < k, ∃ br,
    m.branches[i]? = some br ∧ br.files.get (s ++ [whtmpName n (c + j)]) ≠ none

/-- The same after the counter has ticked, with the number of the next name. -/
def Ticked (i : ℕ) (s : Path) (n : String) (c k a : ℕ) (m : Mount) : Prop :=
  whtmpName n a = whtmpName n (c + k) ∧ m.cnt % 2 ^ 16 = (c + (k + 1)) % 2 ^ 16 ∧ ∀ j < k, ∃ br,
    m.branches[i]? = some br ∧ br.files.get (s ++ [whtmpName n (c + j)]) ≠ none

/-- A name that is looked up and found is one more that is taken. -/
theorem lkupOne_ticked {k a : ℕ} :
    Trial.Triple step (fun _ _ => True) (Ticked i s n c k a) (lkupOne i (s ++ [whtmpName n a]))
      (fun x m => x ≠ none → Tried i s n c (k + 1) m) (fun _ _ => True)
      fun x m => x = .bug → Taken (s ++ [n]) m := by
  refine Trial.Triple.bind (fun _ => Ticked i s n c k a) ?_ fun _ => ?_
  · refine Trial.Triple.call fun m hm => ⟨trivial, ?_⟩
    simp only [step, Mount.fault]
    split
    · exact hm
    · exact hm
    · trivial
  · refine Trial.Triple.bind (fun brs m => brs = m.branches ∧ Ticked i s n c k a m)
      (Trial.Triple.call fun m hm => ⟨trivial, rfl, hm⟩) fun brs => Trial.Triple.pure ?_
    rintro m ⟨rfl, hname, hcnt, htaken⟩ hx
    refine ⟨hcnt, fun j hj => ?_⟩
    rcases Nat.lt_succ_iff_lt_or_eq.mp hj with hj | rfl
    · exact htaken j hj
    · cases hbr : m.branches[i]? with
      | none =>
        rw [hbr] at hx
        exact absurd rfl hx
      | some br =>
        rw [hbr] at hx
        exact ⟨br, rfl, hname ▸ hx⟩

/-- Each try that goes on has found a name that is taken. -/
theorem whtmpTry_tried (r k : ℕ) :
    Trial.Triple step (fun _ _ => True) (Tried i s n c k) (whtmpTry i s n r) (fun _ _ => True)
      (fun _ _ => True) fun x m => x = .bug → Tried i s n c (k + r) m ∨ Taken (s ++ [n]) m := by
  induction r generalizing k with
  | zero => exact Trial.Triple.halt fun m hm _ => .inl hm
  | succ r ih =>
    refine Trial.Triple.bind (fun a => Ticked i s n c k a)
      (Trial.Triple.call fun m hm => ⟨trivial, ?_, ?_, hm.2⟩) fun a => ?_
    · rw [whtmpName, whtmpName, hex4_congr hm.1]
    · have hcnt := hm.1
      show (m.cnt + 1) % 2 ^ 16 % 2 ^ 16 = _
      omega
    refine Trial.Triple.bind _ (lkupOne_ticked.mono (fun _ h => h) (fun _ _ h => h)
      (fun _ _ h => h) fun _ _ h hbug => .inr (h hbug)) fun x => ?_
    refine Trial.Triple.ite (fun _ => Trial.Triple.pure fun _ _ => trivial) fun hx => ?_
    rw [show k + (r + 1) = k + 1 + r by omega]
    refine (ih (k + 1)).mono_pre fun m hm => hm fun hnone => hx ?_
    rw [hnone]
    rfl

theorem auWhtmpLkup_bugOnly : BugOnly (s ++ [n]) (auWhtmpLkup i s n) := by
  refine BugOnly.ite (fun _ => BugOnly.throw_bind _ _) fun _ m _ => ?_
  -- no name has been tried yet
  have hzero : Tried i s n m.cnt 0 m := ⟨rfl, fun j hj => absurd hj (Nat.not_lt_zero j)⟩
  refine (whtmpTry_tried 3 0 m hzero).mono (fun _ _ h => h) (fun _ _ h => h) fun x m' hx hbug => ?_
  rcases hx hbug with htried | htaken
  · exact ⟨i, s, n, m.cnt, List.prefix_refl _, htried.2⟩
  · exact htaken

theorem auWhtmpRen_bugOnly : BugOnly (s ++ [n]) (auWhtmpRen i s n) :=
  .bind auWhtmpLkup_bugOnly fun _ => .bind (.lower _ _) fun _ => .pure _

end Names

/-! ## Operations -/

section Operations

variable {i : ℕ} {dir s p : Path} {name : String} {parent d : Dentry}

theorem auWhCreate_bugOnly : BugOnly p (auWhCreate i dir name) :=
  .bind (.lkupOne _ _) fun _ => .ite (fun _ => .lower _ _) fun _ => .pure _

theorem auWhUnlinkDentry_bugOnly : BugOnly p (auWhUnlinkDentry i dir name) := .lower _ _

theorem auDiropqCreate_bugOnly : BugOnly p (auDiropqCreate i s) :=
  .bind (.lkupOne _ _) fun _ => .lower _ _

theorem auDiropqRemove_bugOnly : BugOnly p (auDiropqRemove i s) :=
  .bind (.lkupOne _ _) fun _ => .oops

theorem auWhtmpRmdir_bugOnly {whlist : List (String × ℕ)} :
    BugOnly p (auWhtmpRmdir i s whlist) := by
  refine .bind (.forM fun x _ => ?_) fun _ => .lower _ _
  exact .bind (.lkupOne _ _) fun _ => .ite (fun _ => .lower _ _) fun _ => .pure _

theorem auLkupNeg_bugOnly : BugOnly p (auLkupNeg i dir name) :=
  .bind (.lkupOne _ _) fun _ => .ite (fun _ => .throw _) fun _ => .pure _

theorem cpupEntry_bugOnly (x : Node) : BugOnly p (cpupEntry i s x) := by
  cases x with
  | file t =>
    refine .bind (.lower _ _) fun _ => .ite (fun _ => ?_) fun _ => .pure _
    exact .bind .check fun _ => .bind .check fun _ => .bind (.lower _ _) fun _ => .check
  | dir => exact .lower _ _
  | link t => exact .bind .check fun _ => .lower _ _
  | special => exact .lower _ _

/-- An error after what was done is taken back. -/
theorem revert_bugOnly {α : Type} {t : Exec Unit} (h : BugOnly p t) (e e' : Errno) :
    BugOnly p (do
      let r ← Trial.attempt t
      if let .error _ := r then
        throw e'
      throw e : Exec α) := by
  refine .bind h.attempt fun r => ?_
  cases r with
  | ok _ => exact .throw _
  | error _ => exact .throw_bind _ _

theorem auCpupSingle_bugOnly (tmp : String) (x : Node) :
    BugOnly p (auCpupSingle i dir name tmp x) := by
  have hren : BugOnly p (auDoRenAfterCpup i dir name tmp) :=
    .bind auLkupNeg_bugOnly fun _ => .lower _ _
  refine .bind (.attempt (.bind (cpupEntry_bugOnly x) fun _ => .bind .check fun _ =>
    .ite (fun _ => .bind .check fun _ => hren) fun _ => hren)) fun r => ?_
  cases r with
  | ok _ => exact .pure _
  | error e =>
    refine .bind (.dInode _ _) fun _ => .ite (fun _ => ?_) fun _ => .throw _
    exact revert_bugOnly (.lower _ _) _ _

theorem auCpupSimple_bugOnly (x : Node) : BugOnly (dir ++ [name]) (auCpupSimple i dir name x) :=
  .bind auWhtmpLkup_bugOnly fun tmp => auCpupSingle_bugOnly tmp x

theorem auSioCpupSimple_bugOnly : BugOnly (dir ++ [name]) (auSioCpupSimple i dir name d) := by
  unfold auSioCpupSimple
  split
  · exact auCpupSimple_bugOnly _
  · exact .oops

theorem auCpDirs_bugOnly (pre rest : Path) : BugOnly (pre ++ rest) (auCpDirs i pre rest) := by
  induction rest generalizing pre with
  | nil => exact .pure _
  | cons n rest ih =>
    have hrest : BugOnly (pre ++ n :: rest) (auCpDirs i (pre ++ [n]) rest) := by
      simpa using ih (pre ++ [n])
    refine .bind (.dentryOf _) fun d => .ite (fun _ => ?_) fun _ => hrest
    refine .bind .check fun _ => .bind (auSioCpupSimple_bugOnly.mono ?_) fun _ => hrest
    exact ⟨rest, by simp⟩

theorem auCpupDirs_bugOnly : BugOnly (dir ++ [name]) (auCpupDirs i dir) :=
  (auCpDirs_bugOnly [] dir).mono (List.prefix_append _ _)

theorem auWbrCreateTdp_bugOnly : BugOnly p (auWbrCreateTdp dir parent d) := by
  refine .bind .read fun brs => .ite (fun _ => .pure _) fun _ => ?_
  split
  · exact .pure _
  · split
    · refine .foldlM (fun a q => .bind (.dentryOf _) fun _ => .pure _) _
    · exact .throw _

theorem auWrDir_bugOnly : BugOnly (dir ++ [name]) (auWrDir dir name parent d) := by
  have hcpup : ∀ b, BugOnly (dir ++ [name]) (auWrDirCpup dir name parent b) := fun b =>
    .ite (fun _ => .bind auCpupDirs_bugOnly fun _ => auLkupNeg_bugOnly) fun _ => auLkupNeg_bugOnly
  refine .bind .read fun brs => .bind (.attempt auWbrCreateTdp_bugOnly) fun r => ?_
  have hrest : ∀ b, BugOnly (dir ++ [name]) (if b ≠ d.dbstart.getD 0 then do
      auWrDirCpup dir name parent b
      return b
    else return b) := fun b =>
    .ite (fun _ => .bind (hcpup b) fun _ => .pure _) fun _ => .pure _
  cases r with
  | ok b =>
    exact .ite (fun _ => .bind (.pure _) hrest) fun _ => .bind auWbrCreateTdp_bugOnly hrest
  | error _ => exact .bind auWbrCreateTdp_bugOnly hrest

theorem auWrDirNeedWh_bugOnly : BugOnly (dir ++ [name]) (auWrDirNeedWh dir name parent d) := by
  refine .bind .read fun brs => ?_
  have hrest : ∀ b, BugOnly (dir ++ [name]) (if b ≠ d.dbstart.getD 0 then do
        auCpupDirs b dir
        return (true, b)
      else do
        check
        let npositive ← known (auLkupBelow dir name true none 0
          ((parent.dirs brs).filter fun x => d.dbstart.getD 0 < x.1) d)
        return (npositive ≠ 0, b) : Exec (Bool × ℕ)) := fun b =>
    .ite (fun _ => .bind auCpupDirs_bugOnly fun _ => .pure _) fun _ =>
      .bind .check fun _ => .bind (.known _) fun _ => .pure _
  exact .ite (fun _ => .bind (.pure _) hrest) fun _ => .bind auWbrCreateTdp_bugOnly hrest

theorem auMayDel_bugOnly (isdir : Bool) : BugOnly p (auMayDel dir name d i isdir) := by
  refine .ite (fun _ => .throw_bind _ _) fun _ => .ite (fun _ => .throw_bind _ _) fun _ => ?_
  refine .bind (.attempt (.lkupOne _ _)) fun r => ?_
  split
  · exact .pure _
  · exact .throw _

theorem lockHdirCreateWh_bugOnly (isdir : Bool) :
    BugOnly (dir ++ [name]) (lockHdirCreateWh dir name parent d isdir) := by
  refine .bind auWrDirNeedWh_bugOnly fun ⟨needWh, b⟩ => .bind .check fun _ => ?_
  have hwh : BugOnly (dir ++ [name]) (if needWh = true then do
      auWhCreate b dir name
      return (needWh, b)
    else return (needWh, b)) :=
    .ite (fun _ => .bind auWhCreate_bugOnly fun _ => .pure _) fun _ => .pure _
  exact .ite (fun _ => .bind (auMayDel_bugOnly isdir) fun _ => hwh) fun _ => hwh

/-- A removal whose whiteout is taken back when it fails. -/
theorem removal_bugOnly {t : Exec Unit} (h : BugOnly p t) (wh : Bool) :
    BugOnly p (do
      let r ← Trial.attempt t
      if let .error e := r then
        if wh then
          doRevert dir name i
        throw e) := by
  refine .bind h.attempt fun r => ?_
  cases r with
  | ok _ => exact .pure _
  | error e =>
    refine .ite (fun _ => .bind ?_ fun _ => .throw _) fun _ => .throw _
    refine .bind (.attempt auWhUnlinkDentry_bugOnly) fun r => ?_
    cases r with
    | ok _ => exact .pure _
    | error _ => exact .throw _

theorem aufsUnlink_bugOnly : BugOnly (dir ++ [name]) (aufsUnlink dir name parent d) := by
  unfold aufsUnlink
  split
  · exact .throw _
  · exact .throw _
  · refine .bind (lockHdirCreateWh_bugOnly _) fun ⟨wh, b⟩ => .ite (fun _ => ?_) fun _ => .pure _
    exact removal_bugOnly (.lower _ _) wh

theorem aufsRmdir_bugOnly : BugOnly (dir ++ [name]) (aufsRmdir dir name parent d) := by
  unfold aufsRmdir
  split
  · exact .throw _
  · have hempty : BugOnly (dir ++ [name]) (auTestEmpty (dir ++ [name]) d) :=
      .bind .read fun brs => .foldlM (fun whlist x => .bind .check fun _ => .known _) _
    refine .bind hempty fun whlist => .bind (lockHdirCreateWh_bugOnly _) fun ⟨wh, b⟩ => ?_
    refine .ite (fun _ => removal_bugOnly (.bind auWhtmpRen_bugOnly fun tmp => ?_) wh)
      fun _ => .pure _
    exact .ite (fun _ => .bind (.attempt auWhtmpRmdir_bugOnly) fun _ => .pure _) fun _ => .pure _
  · exact .throw _

theorem lockHdirLkupWh_bugOnly : BugOnly (dir ++ [name]) (lockHdirLkupWh dir name parent d) := by
  refine .bind auWrDir_bugOnly fun b => .bind .check fun _ => ?_
  refine .ite (fun _ => .throw_bind _ _) fun _ => .ite (fun _ => ?_) fun _ => .pure _
  exact .bind (.lkupOne _ _) fun _ => .pure _

theorem epilog_bugOnly (wh : Bool) : BugOnly p (epilog dir name i wh) := by
  have hrest : BugOnly p (do
      let r ← Trial.attempt check
      if let .error e := r then
        if wh then
          let r ← Trial.attempt (auWhCreate i dir name)
          if let .error _ := r then
            throw .eio
        throw e) := by
    refine .bind (.attempt .check) fun r => ?_
    cases r with
    | ok _ => exact .pure _
    | error e => exact .ite (fun _ => revert_bugOnly auWhCreate_bugOnly _ _) fun _ => .throw _
  exact .ite (fun _ => .bind auWhUnlinkDentry_bugOnly fun _ => hrest) fun _ => hrest

theorem addSimple_bugOnly (x : Node) : BugOnly (dir ++ [name]) (addSimple dir name parent d x) := by
  refine .ite (fun _ => .throw_bind _ _) fun _ => ?_
  refine .bind lockHdirLkupWh_bugOnly fun ⟨wh, b⟩ => .bind (.lower _ _) fun _ => ?_
  refine .bind (.attempt (epilog_bugOnly wh)) fun r => ?_
  cases r with
  | ok _ => exact .pure _
  | error e =>
    refine .bind (.dInode _ _) fun _ => .ite (fun _ => ?_) fun _ => .throw _
    exact revert_bugOnly (.lower _ _) _ _

theorem aufsMkdir_bugOnly : BugOnly (dir ++ [name]) (aufsMkdir dir name parent d) := by
  refine .ite (fun _ => .throw_bind _ _) fun _ => ?_
  refine .bind lockHdirLkupWh_bugOnly fun ⟨wh, b⟩ => .bind (.lower _ _) fun _ => ?_
  have hrevert : ∀ e, BugOnly (dir ++ [name]) (mkdirRevert dir name b e) := fun e =>
    revert_bugOnly (.lower _ _) _ _
  refine .bind (.attempt (.ite (fun _ => auDiropqCreate_bugOnly) fun _ => .pure _)) fun opq => ?_
  cases opq with
  | error e => exact hrevert e
  | ok _ =>
    refine .bind (.attempt (epilog_bugOnly wh)) fun r => ?_
    cases r with
    | ok _ => exact .pure _
    | error e =>
      exact .bind (.attempt (.ite (fun _ => auDiropqRemove_bugOnly) fun _ => .pure _)) fun r =>
        hrevert _

theorem aufsWrite_bugOnly (t : Text) : BugOnly (dir ++ [name]) (aufsWrite dir name parent d t) := by
  unfold aufsWrite
  split
  · exact .throw _
  · exact .throw _
  · refine .bind .read fun brs => .ite (fun _ => .bind .check fun _ => .lower _ _) fun _ => ?_
    refine .bind auWbrCreateTdp_bugOnly fun b => ?_
    have hcpup : BugOnly (dir ++ [name]) (do
        check
        check
        auSioCpupSimple b dir name d
        check
        lower b (.write (dir ++ [name]) t)) :=
      .bind .check fun _ => .bind .check fun _ => .bind auSioCpupSimple_bugOnly fun _ =>
        .bind .check fun _ => .lower _ _
    exact .ite (fun _ => .bind auCpupDirs_bugOnly fun _ => hcpup) fun _ => hcpup
  · exact .throw _

/-- **The `BUG()` of a call** comes only after three temporary names that are taken, for its entry or
for a directory above it. -/
theorem perform_bugOnly (dir : Path) (name : String) (call : Syscall) :
    BugOnly (dir ++ [name]) (perform dir name call) := by
  refine .bind .read fun brs => .bind (.known _) fun parent => ?_
  generalize parent.node = x
  rcases x with _ | _ | _ | _ | _
  · exact .throw_bind _ _
  · exact .throw_bind _ _
  · refine .bind (.known _) fun d => ?_
    cases call with
    | create => exact addSimple_bugOnly _
    | symlink t => exact addSimple_bugOnly _
    | mknod => exact addSimple_bugOnly _
    | mkdir => exact aufsMkdir_bugOnly
    | unlink => exact aufsUnlink_bugOnly
    | rmdir => exact aufsRmdir_bugOnly
    | write t => exact aufsWrite_bugOnly t
  · exact .throw_bind _ _
  · exact .throw_bind _ _

end Operations

/-! ## Faults -/

section Faults

variable {E α : Type} (m : Mount)

/-- A fault of the first mount has come due by the second. -/
def Mount.Failed (m m' : Mount) : Prop := ∃ used, m.faults = used ++ m'.faults ∧ ∃ e, some e ∈ used

theorem lower_faults (i : ℕ) (op : LowerOp) (fs : List (Option Errno)) :
    { m with faults := fs }.lower i op =
      ((m.lower i op).1, { (m.lower i op).2 with faults := fs }) := by
  unfold Mount.lower
  cases m.branches[i]? with
  | none => rfl
  | some br =>
    by_cases hw : auBrWritable br = true
    · simp only [if_pos hw]
      cases op.exec br.files <;> rfl
    · simp only [if_neg hw]

/-- A command uses the faults at the front, and does the same where others follow; only a mount
without faults does not ask for one. -/
theorem step_faults (c : Cmd) : ∃ used, m.faults = used ++ (step m c).2.faults ∧
    ∀ more, (m.faults = [] → more = []) → step { m with faults := used ++ more } c =
      ((step m c).1, { (step m c).2 with faults := more }) := by
  have hfault : ∀ k : Mount → Reply × Mount, (∀ m fs, k { m with faults := fs } =
      ((k m).1, { (k m).2 with faults := fs })) → ∃ used, m.faults = used ++ (m.fault k).2.faults ∧
        ∀ more, (m.faults = [] → more = []) → { m with faults := used ++ more }.fault k =
          ((m.fault k).1, { (m.fault k).2 with faults := more }) := by
    intro k hk
    have hkeep : ∀ m, (k m).2.faults = m.faults := fun m =>
      congrArg (fun x => x.2.faults) (hk m m.faults)
    cases hq : m.faults with
    | nil =>
      refine ⟨[], ?_, fun more hmore => ?_⟩
      · simp only [Mount.fault, hq, hkeep, List.append_nil]
      · rw [hmore rfl]
        simp only [Mount.fault, hq, List.append_nil]
        exact hk m []
    | cons f fs =>
      cases f with
      | none =>
        refine ⟨[none], ?_, fun more _ => ?_⟩
        · simp only [Mount.fault, hq, hkeep, List.singleton_append]
        · simp only [Mount.fault, hq, List.singleton_append]
          rw [hk m more, hk m fs]
      | some e =>
        refine ⟨[some e], ?_, fun more _ => ?_⟩
        · simp only [Mount.fault, hq, List.singleton_append]
        · simp only [Mount.fault, hq, List.singleton_append]
  cases c with
  | lower i op => exact hfault _ fun m fs => lower_faults m i op fs
  | check => exact hfault _ fun m fs => rfl
  | read => exact ⟨[], rfl, fun more _ => rfl⟩
  | tick => exact ⟨[], rfl, fun more _ => rfl⟩

/-- A program that is cut goes the same way where only the faults are that it has used. -/
theorem cut_faults (t : Prog Cmd Reply E α) (k : ℕ) : ∃ used,
    m.faults = used ++ (t.cut step k m).faults ∧
      t.cut step k { m with faults := used } = { t.cut step k m with faults := [] } := by
  induction t generalizing m k with
  | ret a => exact ⟨[], by cases k <;> rfl, by cases k <;> rfl⟩
  | exit e => exact ⟨[], by cases k <;> rfl, by cases k <;> rfl⟩
  | issue c next ih =>
    cases k with
    | zero => exact ⟨[], rfl, rfl⟩
    | succ k =>
      obtain ⟨used, hused, hstep⟩ := step_faults m c
      obtain ⟨used', hused', hcut⟩ := ih (step m c).1 (step m c).2 k
      refine ⟨used ++ used', ?_, ?_⟩
      · rw [Prog.cut_issue, List.append_assoc, ← hused', ← hused]
      · rw [Prog.cut_issue, Prog.cut_issue, hstep used' fun hnil => ?_]
        · exact hcut
        · rw [hused, hused'] at hnil
          simp_all

/-- A program runs the same way where only the faults are that it has used. -/
theorem run_faults (t : Prog Cmd Reply E α) : ∃ used, m.faults = used ++ (t.run step m).2.faults ∧
    t.run step { m with faults := used } =
      ((t.run step m).1, { (t.run step m).2 with faults := [] }) := by
  induction t generalizing m with
  | ret a => exact ⟨[], rfl, rfl⟩
  | exit e => exact ⟨[], rfl, rfl⟩
  | issue c next ih =>
    obtain ⟨used, hused, hstep⟩ := step_faults m c
    obtain ⟨used', hused', hrun⟩ := ih (step m c).1 (step m c).2
    refine ⟨used ++ used', ?_, ?_⟩
    · rw [Prog.run_issue, List.append_assoc, ← hused', ← hused]
    · rw [Prog.run_issue, Prog.run_issue, hstep used' fun hnil => ?_]
      · exact hrun
      · rw [hused, hused'] at hnil
        simp_all

end Faults

end Meta3dr.Aufs
