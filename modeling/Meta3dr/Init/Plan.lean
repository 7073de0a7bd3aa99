import Meta3dr.Init.Stages

/-!
# The writes of the functions

Seen from the card, a boot is a short list of writes. Which list it is depends on the partition
table, on the check of LOG and on the files of LOG. The plan of a function states its part of this
list directly; the script sends exactly the writes of the plan.

## Main definitions

* `createPlan`, `removePlan`, `resetPlan`, `checkLogPlan`: the writes that repartition and format
* `flashPlan`, `goldenPlan`, `factoryPlan`: the writes of a factory reset

## Main results

* `createPartitions_returns`, `checkLog_returns`, `factoryReset_exits`: the functions follow their
  plans
-/

namespace Meta3dr

open Shell Storage Program

variable (w : World) (x : Circumstances)

/-! ## Functions that only repartition and format -/

/-- The write of `mkfs`. -/
def formatted (p : Part) (kind : FsKind) (label : String) : Write :=
  .format p ((x.mkfsFails p).getD (some (fresh kind label)))

def createPlan : List (List Write) :=
  [[.mkpart 100 (some 200)], [.mkpart 200 (some 300)], [.mkpart 300 none],
    [formatted x .p2 .vfat "LATEST"], [formatted x .p3 .ext3 "RWFS"], [formatted x .p4 .ext3 "LOG"]]

def removePlan : List (List Write) := [[.rm .p2], [.rm .p3], [.rm .p4]]

def resetPlan : List (List Write) :=
  [[.rm .p3], [.rm .p4], [.mkpart 200 (some 300)], [.mkpart 300 none],
    [formatted x .p3 .ext3 "RWFS"], [formatted x .p4 .ext3 "LOG"]]

def checkLogPlan (c : Card) : List (List Write) :=
  if 4 ≤ c.fsckStatus .p4 .ext3 then
    [[.fsck .p4 .ext3], [.rm .p4], [.mkpart 300 none], [formatted x .p4 .ext3 "LOG"]]
  else [[.fsck .p4 .ext3]]

section Functions

variable {w x} {s : Machine}

theorem act_mkfs (hs : s.hasDev = true) (p : Part) (kind : FsKind) (label : String) :
    act w x true s (.mkfs p kind label) = s.send [formatted x p kind label] := by
  simp [act, hs, formatted]

theorem createPartitions_returns (hs : s.hasDev = true) :
    createPartitions.Returns (step w x) (writes w x) s (createPlan x) ()
      (s.wrote (createPlan x)) := by
  have hdev : ∀ c, ({ s with card := c } : Machine).hasDev = true := fun _ => hs
  constructor <;>
    simp [createPartitions, sh, step, writes, act, Machine.send, Machine.wrote,
      createPlan, formatted, hs, hdev]

theorem removePartitions_returns (hs : s.hasDev = true) :
    removePartitions.Returns (step w x) (writes w x) s removePlan () (s.wrote removePlan) := by
  have hdev : ∀ c, ({ s with card := c } : Machine).hasDev = true := fun _ => hs
  constructor <;>
    simp [removePartitions, sh, step, writes, act, Machine.send, Machine.wrote,
      removePlan, hs, hdev]

theorem resetSettings_returns (hs : s.hasDev = true) :
    resetSettings.Returns (step w x) (writes w x) s (resetPlan x) () (s.wrote (resetPlan x)) := by
  have hdev : ∀ c, ({ s with card := c } : Machine).hasDev = true := fun _ => hs
  constructor <;>
    simp [resetSettings, sh, step, writes, act, Machine.send, Machine.wrote,
      resetPlan, formatted, hs, hdev]

theorem setScreenUpdating_returns :
    setScreenUpdating.Returns (step w x) (writes w x) s [] () s := ⟨rfl, rfl⟩

theorem setLedUpdating_returns :
    setLedUpdating.Returns (step w x) (writes w x) s [] () s := ⟨rfl, rfl⟩

theorem setLedDone_returns : setLedDone.Returns (step w x) (writes w x) s [] () s := ⟨rfl, rfl⟩

/-- The common last commands of the branches that restart the machine. -/
theorem sync_exits :
    (do sh .sync; shutdown : Script Unit).Exits (step w x) (writes w x) s [[.sync]] .reboot :=
  ⟨rfl, rfl⟩

end Functions

/-- The check of LOG; the repair cannot mount the new partition, since `/mnt/log` is not there
yet, and so leaves no file on it. -/
theorem checkLog_returns (c : Card) :
    checkLog.Returns (step w x) (writes w x) (ready w c) (checkLogPlan x c) ()
      (ready w (After Card.apply c (checkLogPlan x c))) := by
  by_cases h : 4 ≤ c.fsckStatus .p4 .ext3
  · constructor <;>
      simp [checkLog, setLedUpdating, setLedDone, status, sh, step, writes, act, checkLogPlan, h,
        ready, Machine.umounts, Machine.umountWhere, mountPart, Machine.mountOn, Machine.stat_none,
        Machine.isThere_none, Machine.appendTo, Machine.follow_of_not_link, formatted]
  · constructor <;>
      simp [checkLog, status, sh, step, writes, act, checkLogPlan, h, ready]

/-! ## Mounting and flashing -/

/-- The boot loader image at a path flashed, when it is a file. -/
def flashPlan (s : Machine) (p : Path) : List (List Write) :=
  (s.read p).elim [] fun t => [[.flash (x.ddKeeps.elim id List.take (s.bytes p t))]]

section Mounting

variable {w x} {c : Card} {s : Machine}

theorem mountable_isSome {p : Part} (h : c.mountable p = true) :
    (c.table.entry p).isSome = true := by
  obtain ⟨fs, hfs, -⟩ := (Option.any_eq_true _ _).mp h
  exact c.entry_of_holds hfs

/-- A mount on an existing directory depends on the file system only. -/
theorem act_mountPart (hs : s.hasDev = true) {dir : Path} (hdir : s.get dir = some .dir) {p : Part}
    (hp : (p == .p2 && x.latestMountFails) = false) :
    act w x true s (.mountPart p dir) =
      if s.card.mountable p then ⟨{}, [.mount p], s.ram, ⟨dir, .part p, false⟩ :: s.mounts, s.cwd⟩
      else s.fail := by
  cases h : s.card.mountable p with
  | false => simp [act, hp, mountPart, h]
  | true =>
    simp [act, hp, mountPart, h, Machine.hasNode, hs, mountable_isSome h, Machine.mountOn,
      s.stat_dir hdir]

theorem act_umount_none {dir : Path} (h : s.mounts.find? (fun m => decide (m.point = dir)) = none) :
    act w x true s (.umount [dir]) = s.fail := by
  simp [act, Machine.umounts, Machine.umountWhere, h]

/-- The loader flashed from a path, if there is one, in front of a program that exits. -/
theorem flash_exits (hs : s.hasDev = true) {p : Path} {k : Script Unit} {ws : List (List Write)}
    {e : Exit} (hk : k.Exits (step w x) (writes w x) (s.wrote (flashPlan x s p)) ws e) :
    (do if ← cond (.isThere p) then sh (.dd p)
        k).Exits (step w x) (writes w x) s (flashPlan x s p ++ ws) e := by
  cases ht : s.read p with
  | none =>
    have hp : flashPlan x s p = [] := by simp [flashPlan, ht]
    rw [hp, Machine.wrote_nil] at hk
    rw [hp]
    cases hb : s.isThere p <;> constructor <;>
      simp [step, writes, act, hb, ht, hk.schedule, hk.run]
  | some t =>
    have hb := s.isThere_of_read ht
    have hw : s.after (s.send [.flash (x.ddKeeps.elim id List.take (s.bytes p t))]) =
        s.wrote (flashPlan x s p) := by simp [Machine.wrote, flashPlan, ht]
    constructor <;>
      simp [step, writes, act, hb, ht, hs, hw, hk.schedule, hk.run]
    simp [flashPlan, ht]

end Mounting

/-! ## The factory reset -/

/-- The stage with GOLDEN mounted, over the initramfs tree `r`. -/
def withGolden (r : Files) (c : Card) : Machine :=
  ⟨c, r.insert mntGolden .dir, goldenMount :: baseMounts, []⟩

/-- The boot loader of GOLDEN flashed, when GOLDEN mounts and has one. -/
def goldenPlan (r : Files) (c : Card) : List (List Write) :=
  if c.mountable .p1 then
    [.mount .p1] :: (flashPlan x (withGolden r c) (mntGolden ++ ["u-boot.imx"]) ++
      [[.flush .p1], [.sync]])
  else [[.sync]]

def factoryPlan (r : Files) (c : Card) : List (List Write) :=
  removePlan ++ (createPlan x ++ goldenPlan x r (After Card.apply c (removePlan ++ createPlan x)))

section FactoryReset

variable {w x} {c : Card} {r : Files}

theorem golden_exits (hmnt : r.get ["mnt"] = some .dir)
    (hgolden : ∀ q, r.get ("mnt" :: "golden" :: q) = none) :
    (do sh (.mkdir .parents mntGolden)
        sh (.mountPart .p1 mntGolden)
        if ← cond (.isThere (mntGolden ++ ["u-boot.imx"])) then
          sh (.dd (mntGolden ++ ["u-boot.imx"]))
        setLedDone
        sh (.umount [mntGolden])
        sh .sync
        shutdown : Script Unit).Exits (step w x) (writes w x) ⟨c, r, baseMounts, []⟩
      (goldenPlan x r c) .reboot := by
  have hdirs : r.mkdirs mntGolden = r.insert mntGolden .dir := Files.mkdirs_pair hmnt (hgolden [])
  have hmk : act w x true ⟨c, r, baseMounts, []⟩ (.mkdir .parents mntGolden) =
      ⟨{}, [], r.insert mntGolden .dir, baseMounts, []⟩ := by
    simp [act, hdirs]
  have hdir : (⟨c, r.insert mntGolden .dir, baseMounts, []⟩ : Machine).get mntGolden = some .dir := by
    rw [get_base, Files.get_insert_self _ _ (by simp)]
  have hmount := act_mountPart (w := w) (x := x) (by simp) hdir (p := .p1) rfl
  refine quiet_exits hmk ?_
  unfold goldenPlan
  split_ifs with h
  · rw [if_pos h] at hmount
    refine sh_exits (v := [.mount .p1]) hmount (flash_exits (by simp) ?_)
    refine setLedDone_returns.then_exits (sh_exits (v := [.flush .p1]) rfl sync_exits)
  · rw [if_neg h] at hmount
    refine idle_exits hmount (cond_exits (b := false) ?_ ?_)
    · simp [act, Machine.isThere_none, Files.get_insert_ne, hgolden]
    · exact setLedDone_returns.then_exits (idle_exits (act_umount_none (by simp)) sync_exits)

theorem factoryReset_exits (hmnt : r.get ["mnt"] = some .dir)
    (hgolden : ∀ q, r.get ("mnt" :: "golden" :: q) = none) :
    factoryReset.Exits (step w x) (writes w x) ⟨c, r, baseMounts, []⟩ (factoryPlan x r c)
      .reboot := by
  have hg := golden_exits (w := w) (x := x) (c := After Card.apply c (removePlan ++ createPlan x))
    hmnt hgolden
  rw [After_append] at hg
  refine setScreenUpdating_returns.then_exits (setLedUpdating_returns.then_exits
    ((removePartitions_returns (by simp)).bind_exits
      ((createPartitions_returns (by simp [Machine.wrote])).bind_exits ?_)))
  rw [After_append]
  exact hg

end FactoryReset

end Meta3dr
