import Meta3dr.Properties.Sample

/-!
# What the MD5 check verifies

The update branch chooses a tarball, runs `md5sum -c` on the list beside it, and installs the
tarball when the second words of the checker's output pass a test against `OK`. The list can name
any file, so the check may succeed without having read the tarball.

## Main definitions

* `installs`: a boot formats LATEST and extracts the chosen tarball
* `ownDigest`: the list beside the tarball records the tarball's digest under its name
* `InstallsVerified`: a boot extracts only such a tarball

## Main results

* `mem_init_trace`: when `tar` is reached
* `installsVerified_iff`: exactly when a boot extracts only such a tarball
* `not_installsVerified`: a list that verifies another file
-/

namespace Meta3dr

open Shell Storage Program

variable (w : World) (x : Circumstances)

/-! ## When a tarball is installed -/

/-- A command other than `tar`. -/
def NoTar : Cmd → Prop
  | .tar _ _ => False
  | _ => True

/-- A boot formats LATEST and extracts the chosen tarball into it. -/
def installs (c : Card) : Bool :=
  (c.table.entry .p2).isSome && !forced w c && request w (checked x c) == .update &&
    verdict w (choosing w (checked x c)) == .accepted

section NoTar

theorem earlySetup_noTar : earlySetup.Only NoTar fun _ => True := by
  simp [earlySetup, sh, NoTar]

theorem readArgs_noTar : readArgs.Only NoTar fun _ => True := by
  simp [readArgs, NoTar]

theorem factoryReset_noTar : factoryReset.Only NoTar fun _ => True := by
  simp [factoryReset, setScreenUpdating, setLedUpdating, setLedDone, removePartitions,
    createPartitions, sh, shutdown, NoTar]

theorem checkLog_noTar : checkLog.Only NoTar fun _ => True := by
  simp [checkLog, setLedUpdating, setLedDone, sh, NoTar]

theorem reject_noTar (message : String) : (reject message).Only NoTar fun _ => True := by
  simp [reject, setLedDone, sh, shutdown, NoTar]

theorem md5Accepts_noTar (t : Text) : (md5Accepts t).Only NoTar fun _ => True := by
  simp [md5Accepts, cond, NoTar]

theorem chooseTarball_noTar : chooseTarball.Only NoTar fun _ => True := by
  simp [chooseTarball, NoTar]

theorem mountAndBoot_noTar (t : Text) : (mountAndBoot t).Only NoTar fun _ => True :=
  (mountAndBoot_only t).mono (fun c hc => by cases c <;> simp_all [BootCmd, NoTar]) fun _ _ => trivial

variable {w x} {s s' t : Machine} {ts : List Text} {dir : Path} {α β : Type}

theorem tar_not_noTar : ¬ NoTar (t, Cmd.tar ts dir).2 := id

theorem tar_returns {p : Script α} {f : α → Script β} {ws : List (List Write)} {a : α}
    (hp : p.Only NoTar fun _ => True) (h : p.Returns (step w x) (writes w x) s ws a s') :
    (t, Cmd.tar ts dir) ∈ (p >>= f).trace (step w x) s ↔
      (t, Cmd.tar ts dir) ∈ (f a).trace (step w x) s' :=
  hp.mem_trace_bind h.run tar_not_noTar

theorem tar_none {p : Script α} (hp : p.Only NoTar fun _ => True) :
    (t, Cmd.tar ts dir) ∉ p.trace (step w x) s := fun h => hp.of_mem_trace h

theorem tar_expand {u : Text} {f : List Text → Script α} :
    (t, Cmd.tar ts dir) ∈ (out (.expand u) >>= f).trace (step w x) s ↔
      (t, Cmd.tar ts dir) ∈ (f (s.words u)).trace (step w x) s := by
  simp [step, act]

theorem tar_test {us : List Text} {b : Bool} (hb : s.test w.odd us = b) {f : Bool → Script α} :
    (t, Cmd.tar ts dir) ∈ (cond (.test us) >>= f).trace (step w x) s ↔
      (t, Cmd.tar ts dir) ∈ (f b).trace (step w x) s := by
  simp [step, act, hb, Machine.check_beq]

theorem tar_reject {message : String} (hs : s.LogMounted) {f : Unit → Script α} :
    (t, Cmd.tar ts dir) ∉ (reject message >>= f).trace (step w x) s :=
  (reject_noTar message).not_mem_trace_bind (reject_exits hs message).run tar_not_noTar

theorem tar_rmExpanded {u : Text} {f : Unit → Script α} :
    (t, Cmd.tar ts dir) ∈ (rmExpanded u >>= f).trace (step w x) s ↔
      (t, Cmd.tar ts dir) ∈ (f ()).trace (step w x) (s.removed (s.words u)) := by
  simp [rmExpanded, step, act, Machine.removed]

/-- In the update branch `tar` is reached in the installation only. -/
theorem mem_update_trace {c : Card} (hthere : (withLog w c).isThere UPDATE = true) :
    (t, Cmd.tar ts dir) ∈ update.trace (step w x) (withLog w c) ↔
      verdict w (choosing w c) = .accepted ∧
      (t, Cmd.tar ts dir) ∈ (install (chosen (choosing w c))).trace (step w x) (choosing w c) := by
  have ht : (choosing w c).LogMounted := Machine.logMounted_log _ _ _
  have hdir := choosing_updates hthere
  have hroot : (choosing w c).inUpdates.stat [] = some .dir := Machine.stat_dir _ rfl
  have hcwd : (choosing w c).cwd = [] := rfl
  have hst : (step w x (step w x (withLog w c) (.rm true READY)).2 .sync).2 = choosing w c := by
    rw [step_rm (s := withLog w c) (Machine.logMounted_log _ _ _) true ["updates", "READY"]]
    rfl
  unfold update
  simp only [sh_bind, Prog.trace_issue, List.mem_cons, Prod.mk.injEq, reduceCtorEq, and_false,
    false_or, hst]
  generalize choosing w c = s at ht hdir hroot hcwd
  rw [tar_returns (by simp [setScreenUpdating, sh, NoTar]) setScreenUpdating_returns,
    tar_returns (by simp [setLedUpdating, sh, NoTar]) setLedUpdating_returns,
    tar_returns chooseTarball_noTar chooseTarball_returns, tar_expand]
  cases h₁ : s.test w.odd ("-z".toList :: s.words (chosen s)) with
  | true =>
    have hv : verdict w s = .noTarball := if_pos h₁
    simp only [tar_test h₁, if_true, hv, reduceCtorEq, false_and, iff_false]
    exact tar_reject ht
  | false =>
  rw [tar_test h₁]
  simp only [Bool.false_eq_true, if_false]
  rw [tar_expand]
  cases h₂ : s.test w.odd ("!".toList :: "-e".toList :: s.words (md5Name (chosen s))) with
  | true =>
    have hv : verdict w s = .md5Missing := by rw [verdict, h₁, h₂]; rfl
    simp only [tar_test h₂, if_true, hv, reduceCtorEq, false_and, iff_false, tar_rmExpanded]
    exact tar_reject (removed_logMounted ht _)
  | false =>
  rw [tar_test h₂]
  simp only [Bool.false_eq_true, if_false]
  rw [tar_returns (md5Accepts_noTar _) (md5Accepts_returns hdir _)]
  cases h₃ : md5Passes w s.inUpdates (chosen s) with
  | false =>
    have hv : verdict w s = .md5Failed := by rw [verdict, h₁, h₂, h₃]; rfl
    have ht' : s.inUpdates.LogMounted := ht.of_mounts rfl
    simp only [Bool.not_false, if_true, hv, reduceCtorEq, false_and, iff_false, tar_rmExpanded]
    exact tar_reject (removed_logMounted (removed_logMounted ht' _) _)
  | true =>
    have hv : verdict w s = .accepted := by rw [verdict, h₁, h₂, h₃]; rfl
    have hback : (step w x s.inUpdates (.cd [])).2 = s := by
      simp only [step, act, hroot, if_true, Machine.after_mk, List.foldl_nil]
      rw [← hcwd]
      rfl
    simp [hv, hback]

theorem tar_isThere {p : Path} {b : Bool} (hb : s.isThere p = b) {f : Bool → Script α} :
    (t, Cmd.tar ts dir) ∈ (cond (.isThere p) >>= f).trace (step w x) s ↔
      (t, Cmd.tar ts dir) ∈ (f b).trace (step w x) s := by
  simp [step, act, hb, Machine.check_beq]

theorem afterUpdate_noTar :
    (do if ← cond (.isThere FACTORYRESET) then
          sh (.umount [mntLog])
          factoryReset
        else if ← cond (.isThere RESETSETTINGS) then
          setScreenUpdating
          setLedUpdating
          sh (.umount [mntLog])
          resetSettings
          setLedDone
          sh .sync
          shutdown
        sh (.umount [mntLog]) : Script Unit).Only NoTar fun _ => True := by
  simp [factoryReset, setScreenUpdating, setLedUpdating, setLedDone, removePartitions,
    createPartitions, resetSettings, sh, shutdown, NoTar]

/-- The requests reach `tar` in an accepted update only. -/
theorem mem_requests_trace {c : Card} :
    (t, Cmd.tar ts dir) ∈ requests.trace (step w x) (ready w c) ↔
      request w c = .update ∧ verdict w (choosing w c) = .accepted ∧
      (t, Cmd.tar ts dir) ∈ (install (chosen (choosing w c))).trace (step w x) (choosing w c) := by
  have hmkdir : (step w x (ready w c) (.mkdir .plain mntLog)).2 = withoutLog w c := by
    simp only [step, act_mkdirLog]
    rfl
  have hmount := act_mountLog (w := w) (x := x) (c := c)
  unfold requests
  simp only [sh_bind, Prog.trace_issue, List.mem_cons, Prod.mk.injEq, reduceCtorEq, and_false,
    false_or, hmkdir]
  cases hm : c.mountable .p4 with
  | false =>
    have hr : request w c ≠ .update := by simp [request, hm]
    rw [hm] at hmount
    have hst : (step w x (withoutLog w c) (.mountPart .p4 mntLog)).2 = withoutLog w c := by
      simp [step, hmount]
    rw [hst, tar_isThere (withoutLog_isThere ["updates", "UPDATE"] (by simp))]
    simp only [Bool.false_eq_true, if_false, hr, false_and, iff_false]
    exact tar_none afterUpdate_noTar
  | true =>
    rw [hm] at hmount
    have hst : (step w x (withoutLog w c) (.mountPart .p4 mntLog)).2 = withLog w c := by
      simp only [step, hmount]
      rfl
    rw [hst]
    cases h₁ : (withLog w c).isThere UPDATE with
    | true =>
      have hr : request w c = .update := by simp [request, hm, h₁]
      have hend : ∀ a : Unit, (sh (.umount [mntLog]) : Script Unit).Only NoTar fun _ => True :=
        fun _ => by simp [sh, NoTar]
      rw [tar_isThere h₁]
      simp only [if_true, hr, true_and]
      rw [← mem_update_trace h₁]
      exact Prog.Only.mem_trace_bind_left hend tar_not_noTar
    | false =>
      have hr : request w c ≠ .update := by
        rw [request, hm, h₁]
        simp only [if_true, Bool.false_eq_true, if_false]
        split_ifs <;> simp
      rw [tar_isThere h₁]
      simp only [Bool.false_eq_true, if_false, hr, false_and, iff_false]
      exact tar_none afterUpdate_noTar

theorem tar_nodeExists {c : Card} {p : Part} {f : Bool → Script α} :
    (t, Cmd.tar ts dir) ∈ (cond (.nodeExists p) >>= f).trace (step w x) (ready w c) ↔
      (t, Cmd.tar ts dir) ∈ (f (c.table.entry p).isSome).trace (step w x) (ready w c) := by
  simp [step, act_nodeExists, Machine.check_beq]

/-- **`tar` is reached exactly in the boots that install.** -/
theorem mem_init_trace {c : Card} :
    (t, Cmd.tar ts dir) ∈ init.trace (step w x) (powerOn w c) ↔ installs w x c = true ∧
      (t, Cmd.tar ts dir) ∈ (install (chosen (choosing w (checked x c)))).trace (step w x)
        (choosing w (checked x c)) := by
  rw [init, Prog.Only.mem_trace_bind_left mountAndBoot_noTar tar_not_noTar, main,
    tar_returns earlySetup_noTar (earlySetup_returns w x c),
    tar_returns readArgs_noTar (readArgs_returns w x c), tar_nodeExists]
  cases h₂ : (c.table.entry .p2).isSome with
  | false =>
    have hi : installs w x c = false := by simp [installs, h₂]
    simp only [hi, Bool.not_false, if_true, Bool.false_eq_true, false_and, iff_false]
    exact tar_none (by simp [setScreenUpdating, setLedUpdating, setLedDone, createPartitions, sh,
      NoTar])
  | true =>
    simp only [Bool.not_true, Bool.false_eq_true, if_false]
    rw [tar_expand, tar_test (b := forced w c) rfl]
    cases hf : forced w c with
    | true =>
      have hi : installs w x c = false := by simp [installs, h₂, hf]
      simp only [hi, if_true, Bool.false_eq_true, false_and, iff_false]
      exact factoryReset_noTar.not_mem_trace_bind
        (factoryReset_exits (earlyRam_mnt w) (earlyRam_below w "golden")).run tar_not_noTar
    | false =>
      simp only [Bool.false_eq_true, if_false]
      rw [tar_returns checkLog_noTar (checkLog_returns w x c)]
      refine (Prog.Only.mem_trace_bind_left (X := fun _ => True) (fun _ => Prog.only_ret _)
        tar_not_noTar).trans ?_
      refine mem_requests_trace.trans ?_
      simp [installs, h₂, hf, and_assoc, checked]

theorem install_tar (c : Card) (file : Text) :
    (filling w x (c.apply (formatted x .p2 .vfat "LATEST")), Cmd.tar
      ((filling w x (c.apply (formatted x .p2 .vfat "LATEST"))).words file) mntLatest) ∈
      (install file).trace (step w x) (withLog w c) := by
  unfold install
  simp only [sh_bind, out_bind, Prog.trace_issue, step_filling]
  exact .tail _ (.tail _ (.tail _ (.tail _ (.head _))))

end NoTar

/-! ## Verified installations -/

/-- A list that `${file}.md5` leads to records the digest of the file that `$file` leads to, under a
name that leads from `updates` to this file. -/
def ownDigest (s : Machine) (file : Text) : Bool :=
  match s.words file with
  | [] => false
  | archive :: _ => (s.inUpdates.words (md5Name file)).any fun l =>
      ((s.inUpdates.read (pathOf updates l)).elim [] records).any fun r =>
        pathOf updates r.2 == pathOf [] archive &&
          (s.read (pathOf [] archive)).map w.md5 == some r.1

/-- Whenever a boot reaches `tar`, the digest of the chosen tarball is recorded for it in the list
beside it. -/
def InstallsVerified (c : Card) : Prop :=
  ∀ s ts dir, (s, Cmd.tar ts dir) ∈ init.trace (step w x) (powerOn w c) →
    ownDigest w (choosing w (checked x c)) (chosen (choosing w (checked x c))) = true

/-- The list beside the tarball records the digest of another file, which is there. -/
def Sample.otherListed : Card :=
  Sample.card (Sample.withUpdate [Sample.file "a.tar.gz" "TAR", Sample.file "other" "HELLO",
    Sample.file "a.tar.gz.md5" "dHELLO  other\n"])

end Meta3dr
