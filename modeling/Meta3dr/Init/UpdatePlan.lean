import Meta3dr.Init.Plan

/-!
# The writes of the update branch

The update branch chooses a tarball, checks it and either installs or rejects it. The choice and
the check only read the files of LOG; what they find is the verdict, and the verdict decides what
is written.

## Main definitions

* `chosen`, `Verdict`, `verdict`: the tarball the branch chooses, and what becomes of it
* `rejectPlan`, `installPlan`, `updatePlan`: the writes of a rejection, of an installation and of
  the whole branch

## Main results

* `install_exits`, `update_exits`: the branch follows its plan
-/

namespace Meta3dr

open Shell Storage Program

variable (w : World) (x : Circumstances)

/-! ## Removing and reporting -/

/-- The writes of `rm` on an entry of LOG. -/
def delPlan (c : Card) (q : Path) : List (List Write) :=
  match (c.files .p4).get q with
  | none | some .dir => []
  | some _ => [[.del .p4 q]]

/-- The writes of a report and of the `sync` after it. -/
def reportPlan (s : Machine) (message : String) : List (List Write) :=
  group (s.appendTo UPDATEFAILED (message.toList ++ ['\n'])).writes [[.sync]]

def rejectPlan (s : Machine) (message : String) : List (List Write) :=
  delPlan s.card ["updates", "UPDATE"] ++
    reportPlan (s.wrote (delPlan s.card ["updates", "UPDATE"])) message

/-- The machine after `rm` of words. -/
def Machine.removed (s : Machine) (ws : List Text) : Machine := s.after (Machine.rmWords ws s)

section Reject

variable {w x} {s : Machine} {α : Type} {e : Exit} {ws : List (List Write)}

theorem step_rm (hs : s.LogMounted) (force : Bool) (q : Path) :
    (step w x s (.rm force ("mnt" :: "log" :: q))).2 = s.wrote (delPlan s.card q) := by
  simp only [step, act, hs.unlink, delPlan]
  cases (s.card.files .p4).get q with
  | none => rfl
  | some n => cases n <;> rfl

theorem rm_exits (hs : s.LogMounted) (force : Bool) (q : Path) {f : Unit → Script α}
    (h : (f ()).Exits (step w x) (writes w x) (s.wrote (delPlan s.card q)) ws e) :
    (sh (.rm force ("mnt" :: "log" :: q)) >>= f).Exits (step w x) (writes w x) s
      (delPlan s.card q ++ ws) e := by
  have hact : act w x true s (.rm force ("mnt" :: "log" :: q)) = s.unlink ("mnt" :: "log" :: q) := rfl
  rw [hs.unlink] at hact
  unfold delPlan at h ⊢
  split at hact <;> simp_all only
  · exact idle_exits hact h
  · exact idle_exits hact h
  · exact sh_exits (v := [.del .p4 q]) hact h

theorem reject_exits (hs : s.LogMounted) (message : String) :
    (reject message).Exits (step w x) (writes w x) s (rejectPlan s message) .reboot :=
  rm_exits hs false ["updates", "UPDATE"] (sh_exits rfl (setLedDone_returns.then_exits sync_exits))

theorem rmExpanded_exits (t : Text) {f : Unit → Script α}
    (h : (f ()).Exits (step w x) (writes w x) (s.removed (s.words t)) ws e) :
    (rmExpanded t >>= f).Exits (step w x) (writes w x) s
      (group (Machine.rmWords (s.words t) s).writes ws) e := by
  have hrm : (rmExpanded t).Returns (step w x) (writes w x) s
      (group (Machine.rmWords (s.words t) s).writes []) () (s.removed (s.words t)) := ⟨rfl, rfl⟩
  have hseq := hrm.bind_exits h
  rwa [group_append] at hseq

end Reject

/-! ## Installing -/

/-- LATEST, as `mkfs` left it, can be mounted. -/
def latestMounts (c : Card) : Bool := !x.latestMountFails && c.mountable .p2

/-- The mounts while a tarball is installed. -/
def installMounts (mounted : Bool) : List Mount :=
  if mounted then latestMount :: logMount :: baseMounts else logMount :: baseMounts

/-- The stage after the attempt to mount LATEST. -/
def filling (c : Card) : Machine :=
  ⟨c, w.logRam.insert mntLatest .dir, installMounts (latestMounts x c), []⟩

/-- The stage after `tar`. -/
def filled (c : Card) (file : Text) : Machine :=
  (step w x (filling w x c) (.tar ((filling w x c).words file) mntLatest)).2

/-- The boot loader image of LATEST. -/
abbrev latestLoader : Path := mntLatest ++ ["u-boot.imx"]

/-- The writes from the removal of `UPDATE` on. -/
def finishPlan (s : Machine) : List (List Write) :=
  delPlan s.card ["updates", "UPDATE"] ++
    if (s.wrote (delPlan s.card ["updates", "UPDATE"])).isThere RESETSETTINGS then
      (.flush .p4 :: if s.mounts.any (·.isPart .p2) then [.flush .p2] else []) ::
        (resetPlan x ++ [[.sync]])
    else [[.sync]]

/-- The writes from `tar` on, on a card with LATEST formatted. -/
def fillPlan (c : Card) (file : Text) : List (List Write) :=
  group (writes w x (filling w x c) (.tar ((filling w x c).words file) mntLatest))
    (flashPlan x (filled w x c file) latestLoader ++
      finishPlan x ((filled w x c file).wrote (flashPlan x (filled w x c file) latestLoader)))

def installPlan (c : Card) (file : Text) : List (List Write) :=
  let c' := c.apply (formatted x .p2 .vfat "LATEST")
  [formatted x .p2 .vfat "LATEST"] ::
    group (if latestMounts x c' then [.mount .p2] else []) (fillPlan w x c' file)

section Install

variable {w x}

theorem installMounts_logMounted (b : Bool) (c : Card) (r : Files) (d : Path) :
    (⟨c, r, installMounts b, d⟩ : Machine).LogMounted := by
  cases b
  · exact Machine.logMounted_log c r d
  · exact Machine.logMounted_latest c r d

theorem installMounts_hasDev (b : Bool) (c : Card) (r : Files) (d : Path) :
    (⟨c, r, installMounts b, d⟩ : Machine).hasDev = true := by
  cases b <;> exact hasDev_of_mem (by simp [installMounts, baseMounts])

/-- Unmounting LOG and LATEST leaves the mounts of the first stage. -/
theorem act_umount_install (b : Bool) (c : Card) (r : Files) :
    act w x true ⟨c, r, installMounts b, []⟩ (.umount [mntLog, mntLatest]) =
      ⟨if b then {} else { status := 1 }, .flush .p4 :: if b then [.flush .p2] else [], r,
        baseMounts, []⟩ := by
  cases b <;> rfl

theorem finish_exits (b : Bool) (c : Card) (r : Files) :
    (do sh (.rm false UPDATE)
        if ← cond (.isThere RESETSETTINGS) then
          sh (.umount [mntLog, mntLatest])
          resetSettings
        setLedDone
        sh .sync
        shutdown : Script Unit).Exits (step w x) (writes w x) ⟨c, r, installMounts b, []⟩
      (finishPlan x ⟨c, r, installMounts b, []⟩) .reboot := by
  have hs := installMounts_logMounted b c r []
  unfold finishPlan
  refine rm_exits hs false ["updates", "UPDATE"] (cond_exits rfl ?_)
  have hum := act_umount_install (w := w) (x := x) b
    (After Card.apply c (delPlan c ["updates", "UPDATE"])) r
  have hmount : (installMounts b).any (·.isPart .p2) = b := by cases b <;> rfl
  by_cases h : ((⟨c, r, installMounts b, []⟩ : Machine).wrote
      (delPlan c ["updates", "UPDATE"])).isThere RESETSETTINGS = true
  · simp only [h, hmount, if_true]
    refine sh_exits hum ?_
    exact (resetSettings_returns (by simp)).bind_exits (setLedDone_returns.then_exits sync_exits)
  · simp only [h]
    exact setLedDone_returns.then_exits sync_exits

theorem tar_mounts (s : Machine) (ws : List Text) (dir : Path) :
    (step w x s (.tar ws dir)).2.mounts = s.mounts ∧ (step w x s (.tar ws dir)).2.cwd = s.cwd := by
  simp only [step, act]
  split
  · unfold Machine.unpack
    repeat' split
    all_goals exact ⟨rfl, rfl⟩
  · exact ⟨rfl, rfl⟩

theorem act_mountLatest (c : Card) :
    act w x true ⟨c, w.logRam.insert mntLatest .dir, logMount :: baseMounts, []⟩
        (.mountPart .p2 mntLatest) =
      ⟨if latestMounts x c then {} else { status := 1 },
        if latestMounts x c then [.mount .p2] else [], w.logRam.insert mntLatest .dir,
        installMounts (latestMounts x c), []⟩ := by
  have hdir : (⟨c, w.logRam.insert mntLatest .dir, logMount :: baseMounts, []⟩ : Machine).get
      mntLatest = some .dir := by
    rw [get_cons_outside _ _ _ rfl, get_base, Files.get_insert_self _ _ (by simp)]
  cases hx : x.latestMountFails with
  | true => simp [act, hx, latestMounts, Machine.fail, Machine.answer, installMounts]
  | false =>
    rw [act_mountPart (by simp) hdir (by simp [hx])]
    cases hm : c.mountable .p2 <;>
      simp [hx, hm, latestMounts, Machine.fail, Machine.answer, installMounts, latestMount]

theorem fill_exits (c : Card) (file : Text) :
    (do let archive ← out (.expand file)
        sh (.tar archive mntLatest)
        if ← cond (.isThere latestLoader) then
          sh (.dd latestLoader)
        sh (.rm false UPDATE)
        if ← cond (.isThere RESETSETTINGS) then
          sh (.umount [mntLog, mntLatest])
          resetSettings
        setLedDone
        sh .sync
        shutdown : Script Unit).Exits (step w x) (writes w x) (filling w x c)
      (fillPlan w x c file) .reboot := by
  have htar := tar_mounts (w := w) (x := x) (filling w x c) ((filling w x c).words file) mntLatest
  have hmounts : (filled w x c file).mounts = installMounts (latestMounts x c) := htar.1
  have hcwd : (filled w x c file).cwd = [] := htar.2
  have hfilled : filled w x c file = ⟨(filled w x c file).card, (filled w x c file).ram,
      installMounts (latestMounts x c), []⟩ := by rw [← hmounts, ← hcwd]
  refine out_exits rfl (sh_exits rfl ?_)
  change Prog.Exits _ _ _ (filled w x c file) _ _
  refine flash_exits ?_ ?_
  · rw [hfilled]
    exact installMounts_hasDev _ _ _ _
  · rw [hfilled]
    exact finish_exits _ _ _

theorem act_mkdirLatest (c : Card) : act w x true (withLog w c) (.mkdir .plain mntLatest) =
    ⟨{}, [], w.logRam.insert mntLatest .dir, logMount :: baseMounts, []⟩ := by
  have hnone : (withLog w c).get mntLatest = none := by
    rw [withLog, get_cons_outside _ _ _ rfl, get_base, World.logRam,
      Files.get_insert_ne _ _ (by simp)]
    simp
  have hmnt : (withLog w c).stat mntLatest.dropLast = some .dir := by
    refine Machine.stat_dir _ (?_ : (withLog w c).get ["mnt"] = some .dir)
    rw [withLog, get_cons_outside _ _ _ rfl, get_base, World.logRam,
      Files.get_insert_ne _ _ (by simp)]
    simp
  have hon : (withLog w c).mountOf mntLatest = none := by
    simp [Machine.mountOf, withLog, logMount, baseMounts]
  simp only [act, hnone, true_and]
  rw [if_pos hmnt, Machine.put, hon]
  rfl

theorem hasDev_withLog (c : Card) : (withLog w c).hasDev = true :=
  hasDev_cons _ _ _ _ _ (hasDev_base _ _ _)

theorem foldl_mountLatest (c : Card) (b : Bool) :
    (if b then [Write.mount .p2] else []).foldl Card.apply c = c := by
  cases b <;> rfl

/-- The first commands of the installation lead to the stage in which LATEST is filled. -/
theorem step_filling (c : Card) :
    (step w x (step w x (step w x (withLog w c) (.mkfs .p2 .vfat "LATEST")).2
      (.mkdir .plain mntLatest)).2 (.mountPart .p2 mntLatest)).2 =
      filling w x (c.apply (formatted x .p2 .vfat "LATEST")) := by
  have h₁ : (step w x (withLog w c) (.mkfs .p2 .vfat "LATEST")).2 =
      withLog w (c.apply (formatted x .p2 .vfat "LATEST")) := by
    rw [step, act_mkfs (hasDev_withLog c)]
    rfl
  have h₂ : ∀ d, (step w x (withLog w d) (.mkdir .plain mntLatest)).2 =
      ⟨d, w.logRam.insert mntLatest .dir, logMount :: baseMounts, []⟩ := fun d => by
    rw [step, act_mkdirLatest]
    rfl
  rw [h₁, h₂, step, act_mountLatest, Machine.after_mk, foldl_mountLatest]
  rfl

theorem install_exits (c : Card) (file : Text) :
    (install file).Exits (step w x) (writes w x) (withLog w c) (installPlan w x c file)
      .reboot := by
  refine sent_exits (act_mkfs (hasDev_withLog c) .p2 .vfat "LATEST")
    (quiet_exits (act_mkdirLatest _) (sh_exits (act_mountLatest _) ?_))
  rw [foldl_mountLatest]
  exact fill_exits _ _

end Install

/-! ## The choice and the check -/

/-- The tarball the branch chooses. -/
def chosen (s : Machine) : Text :=
  (s.words (unlines (sortLines (s.found updates ".tar.gz".toList)))).foldl (fun _ file => file) []

/-- The machine with `/mnt/log/updates` as the working directory. -/
def Machine.inUpdates (s : Machine) : Machine := { s with cwd := updates }

/-- The test on the output of `md5sum -c`, in the working directory of the machine. -/
def md5Passes (s : Machine) (file : Text) : Bool :=
  s.test w.odd (s.words (unlines ((s.md5sumCheck w.md5 (s.words (md5Name file))).map secondField)) ++
    ["==".toList, "OK".toList])

/-- What becomes of an update. -/
inductive Verdict
  | noTarball | md5Missing | md5Failed | accepted
  deriving DecidableEq

/-- The verdict on the tarball of the files on LOG. -/
def verdict (s : Machine) : Verdict :=
  if s.test w.odd ("-z".toList :: s.words (chosen s)) then .noTarball
  else if s.test w.odd ("!".toList :: "-e".toList :: s.words (md5Name (chosen s))) then .md5Missing
  else if md5Passes w s.inUpdates (chosen s) then .accepted
  else .md5Failed

/-- The writes after the verdict; `install` are those of the installation. -/
def verdictPlan (s : Machine) (install : List (List Write)) : List (List Write) :=
  match verdict w s with
  | .noTarball => rejectPlan s "No update tarball"
  | .md5Missing =>
    group (Machine.rmWords (s.words (chosen s)) s).writes
      (rejectPlan (s.removed (s.words (chosen s))) "MD5 Missing")
  | .md5Failed =>
    let t := s.inUpdates
    let t' := t.removed (t.words (chosen s))
    group (Machine.rmWords (t.words (chosen s)) t).writes
      (group (Machine.rmWords (t'.words (md5Name (chosen s))) t').writes
        (rejectPlan (t'.removed (t'.words (md5Name (chosen s)))) "MD5 Failed"))
  | .accepted => install

/-- LOG without `READY`, which is what the branch chooses from. -/
def readyGone (c : Card) : Card := After Card.apply c (delPlan c ["updates", "READY"])

/-- The stage in which the branch chooses. -/
def choosing (c : Card) : Machine := withLog w (readyGone c)

def updatePlan (c : Card) : List (List Write) :=
  delPlan c ["updates", "READY"] ++ [.sync] ::
    verdictPlan w (choosing w c) (installPlan w x (readyGone c) (chosen (choosing w c)))

section Update

variable {w x} {s : Machine}

/-- What `rm` of an entry of LOG leaves. -/
theorem get_delPlan (c : Card) {q p : Path} (hq : q ≠ []) :
    ((After Card.apply c (delPlan c q)).files .p4).get p =
      if p = q ∧ (c.files .p4).get q ≠ some .dir then none else (c.files .p4).get p := by
  unfold delPlan
  cases h : (c.files .p4).get q with
  | none => by_cases hp : p = q <;> simp [hp, h]
  | some n =>
    cases n with
    | dir => simp
    | _ =>
      simp only [After_cons, After_nil, List.foldl_cons, List.foldl_nil, Card.apply]
      rw [c.files_edit_self (c.holds_of_get hq h)]
      by_cases hp : p = q
      · subst hp
        simp [Files.get_del_self, h]
      · simp [Files.get_del_ne _ hp, hp]

theorem get_readyGone (c : Card) {q : Path} (h : q ≠ ["updates", "READY"]) :
    ((readyGone c).files .p4).get q = (c.files .p4).get q := by
  rw [readyGone, get_delPlan c (by simp)]
  simp [h]

theorem unlink_mounts (s : Machine) (p : Path) :
    (s.unlink p).mounts = s.mounts ∧ (s.unlink p).cwd = s.cwd := by
  unfold Machine.unlink
  repeat' split
  all_goals exact ⟨rfl, rfl⟩

theorem rmWords_mounts (ts : List Text) (s : Machine) :
    (Machine.rmWords ts s).mounts = s.mounts ∧ (Machine.rmWords ts s).cwd = s.cwd := by
  induction ts generalizing s with
  | nil => exact ⟨rfl, rfl⟩
  | cons t ts ih =>
    have hu := unlink_mounts s (pathOf s.cwd t)
    cases ts with
    | nil => exact hu
    | cons t' ts =>
      have h := ih (s.after (s.unlink (pathOf s.cwd t)))
      exact ⟨h.1.trans hu.1, h.2.trans hu.2⟩

theorem removed_logMounted (hs : s.LogMounted) (ts : List Text) : (s.removed ts).LogMounted :=
  hs.of_mounts (rmWords_mounts ts s).1

theorem chooseTarball_returns :
    chooseTarball.Returns (step w x) (writes w x) s [] (chosen s) s := ⟨rfl, rfl⟩

theorem md5Accepts_returns (hs : s.stat updates = some .dir) (file : Text) :
    (md5Accepts file).Returns (step w x) (writes w x) s [] (md5Passes w s.inUpdates file)
      s.inUpdates := by
  have hcd : act w x true s (.cd updates) = ⟨{}, [], s.ram, s.mounts, updates⟩ := by
    simp [act, hs]
  exact quiet_returns hcd (out_returns rfl (out_returns rfl (out_returns rfl (cond_last rfl))))

/-- Where a tarball is chosen `updates` is a directory: `UPDATE` lies in it. -/
theorem choosing_updates {c : Card} (hthere : (withLog w c).isThere UPDATE = true) :
    (choosing w c).stat updates = some .dir := by
  have hs : (withLog w c).LogMounted := Machine.logMounted_log _ _ _
  have ht : (choosing w c).LogMounted := Machine.logMounted_log _ _ _
  refine Machine.stat_dir _ ?_
  rw [ht.get ["updates"]]
  exact (get_readyGone c (by simp)).trans
    (hs.get_dropLast (q := ["updates", "UPDATE"]) (Machine.get_of_isThere _ hthere))

/-- **The update branch follows its plan.** -/
theorem update_exits {c : Card} (hthere : (withLog w c).isThere UPDATE = true) :
    update.Exits (step w x) (writes w x) (withLog w c) (updatePlan w x c) .reboot := by
  have hs : (withLog w c).LogMounted := Machine.logMounted_log _ _ _
  have ht : (choosing w c).LogMounted := Machine.logMounted_log _ _ _
  have hdir := choosing_updates hthere
  have hroot : (choosing w c).inUpdates.stat [] = some .dir := Machine.stat_dir _ rfl
  have hcwd : (choosing w c).cwd = [] := rfl
  have hinstall : (install (chosen (choosing w c))).Exits (step w x) (writes w x) (choosing w c)
      (installPlan w x (readyGone c) (chosen (choosing w c))) .reboot := install_exits _ _
  unfold update updatePlan
  refine rm_exits hs true ["updates", "READY"] (sent_exits (act_sync _ _ _ _) ?_)
  have hst : ((withLog w c).wrote (delPlan (withLog w c).card ["updates", "READY"])).wrote
      [[.sync]] = choosing w c := rfl
  rw [hst]
  generalize installPlan w x (readyGone c) (chosen (choosing w c)) = plan at hinstall ⊢
  generalize choosing w c = s at ht hdir hroot hcwd hinstall
  refine setScreenUpdating_returns.then_exits (setLedUpdating_returns.then_exits
    (chooseTarball_returns.then_exits (out_exits rfl (cond_exits rfl ?_))))
  by_cases h₁ : s.test w.odd ("-z".toList :: s.words (chosen s)) = true
  · have hv : verdict w s = .noTarball := if_pos h₁
    simp only [h₁, if_true, verdictPlan, hv]
    exact (reject_exits ht _).bind _
  simp only [h₁]
  refine out_exits rfl (cond_exits rfl ?_)
  by_cases h₂ : s.test w.odd ("!".toList :: "-e".toList :: s.words (md5Name (chosen s))) = true
  · have hv : verdict w s = .md5Missing := (if_neg h₁).trans (if_pos h₂)
    simp only [h₂, if_true, verdictPlan, hv]
    exact rmExpanded_exits _ ((reject_exits (removed_logMounted ht _) _).bind _)
  simp only [h₂]
  refine (md5Accepts_returns hdir _).then_exits ?_
  by_cases h₃ : md5Passes w s.inUpdates (chosen s) = true
  · have hv : verdict w s = .accepted := ((if_neg h₁).trans (if_neg h₂)).trans (if_pos h₃)
    have hcd : act w x true s.inUpdates (.cd []) = ⟨{}, [], s.ram, s.mounts, []⟩ := if_pos hroot
    have hback : (⟨s.card, s.ram, s.mounts, []⟩ : Machine) = s := by rw [← hcwd]
    simp only [h₃, verdictPlan, hv]
    refine quiet_exits hcd ?_
    simp only [Machine.inUpdates, hback]
    exact hinstall
  · have hv : verdict w s = .md5Failed := ((if_neg h₁).trans (if_neg h₂)).trans (if_neg h₃)
    have ht' : s.inUpdates.LogMounted := ht.of_mounts rfl
    simp only [h₃, verdictPlan, hv]
    exact rmExpanded_exits _ (rmExpanded_exits _ ((reject_exits (removed_logMounted
      (removed_logMounted ht' _) _) _).bind _))

end Update

/-! ## What the branch writes -/

/-- The writes to the files of LOG. -/
def LogWrite : Write → Prop
  | .del p _ | .put p _ _ => p = .p4
  | .sync => True
  | _ => False

/-- The writes of the update branch apart from the settings reset: files of LOG, the content of
LATEST, and the boot loader. -/
def UpdateWrite : Write → Prop
  | .del p _ | .put p _ _ => p = .p4
  | .format p _ | .mount p | .extract p _ _ => p = .p2
  | .flush p => p = .p2 ∨ p = .p4
  | .flash _ | .sync => True
  | _ => False

theorem LogWrite.update {v : Write} (h : LogWrite v) : UpdateWrite v := by
  cases v <;> first | exact h | exact h.elim

theorem LogWrite.avoids {v : Write} (h : LogWrite v) {p : Part} (hp : p ≠ .p4) : v.Avoids p := by
  cases v with
  | del q _ => exact fun he => hp (he.symm.trans h)
  | put q _ _ => exact fun he => hp (he.symm.trans h)
  | sync => trivial
  | _ => exact h.elim

theorem LogWrite.keepsTable {v : Write} (h : LogWrite v) : v.KeepsTable := by
  cases v <;> first | exact h.elim | trivial

theorem LogWrite.keepsLoader {v : Write} (h : LogWrite v) : v.KeepsLoader := by
  cases v <;> first | exact h.elim | trivial

section Writes

variable {w : World} {x : Circumstances} {s : Machine}

/-- Nothing but LOG can be written through the mounts. -/
def Machine.OnlyLog (s : Machine) : Prop :=
  ∀ p m, s.mountOf p = some m → m = logMount ∨ ∃ name, m.source = .pseudo name

theorem onlyLog_withLog (c : Card) (r : Files) (d : Path) :
    (⟨c, r, logMount :: baseMounts, d⟩ : Machine).OnlyLog := by
  intro p m hm
  have hmem := List.mem_of_find?_eq_some hm
  simp only [baseMounts, List.mem_cons, List.not_mem_nil, or_false] at hmem
  rcases hmem with rfl | rfl | rfl | rfl
  · exact Or.inl rfl
  all_goals exact Or.inr ⟨_, rfl⟩

section OnlyLog

variable (hs : s.OnlyLog)
include hs

theorem Machine.OnlyLog.of_mounts {s' : Machine} (h : s'.mounts = s.mounts) : s'.OnlyLog :=
  fun p m hm => hs p m (by rw [← hm, Machine.mountOf, Machine.mountOf, h])

theorem Machine.OnlyLog.put (p : Path) (n : Node) : ∀ v ∈ (s.put p n).writes, LogWrite v := by
  unfold Machine.put
  split
  · simp
  · rename_i m hm
    rcases hs p m hm with rfl | ⟨name, hname⟩
    · simp [logMount, LogWrite]
    · simp only [hname]
      split_ifs <;> simp

theorem Machine.OnlyLog.unlink (p : Path) : ∀ v ∈ (s.unlink p).writes, LogWrite v := by
  unfold Machine.unlink
  split
  · simp
  · simp
  · split
    · simp
    · rename_i m hm
      rcases hs p m hm with rfl | ⟨name, hname⟩
      · simp [logMount, LogWrite]
      · simp only [hname]
        split_ifs <;> simp

theorem Machine.OnlyLog.appendTo (p : Path) (t : Text) :
    ∀ v ∈ (s.appendTo p t).writes, LogWrite v := by
  unfold Machine.appendTo
  dsimp only
  split
  · exact hs.put _ _
  · split_ifs
    · exact hs.put _ _
    · simp
  · simp

end OnlyLog

theorem Machine.OnlyLog.rmWords (hs : s.OnlyLog) (ts : List Text) :
    ∀ v ∈ (Machine.rmWords ts s).writes, LogWrite v := by
  induction ts generalizing s with
  | nil => simp [Machine.rmWords]
  | cons t ts ih =>
    have hu := hs.unlink (pathOf s.cwd t)
    cases ts with
    | nil => exact hu
    | cons t' ts =>
      have hs' : (s.after (s.unlink (pathOf s.cwd t))).OnlyLog :=
        hs.of_mounts (unlink_mounts s (pathOf s.cwd t)).1
      have hw : (Machine.rmWords (t :: t' :: ts) s).writes = (s.unlink (pathOf s.cwd t)).writes ++
          (Machine.rmWords (t' :: ts) (s.after (s.unlink (pathOf s.cwd t)))).writes := rfl
      rw [hw]
      exact List.forall_mem_append.mpr ⟨hu, ih hs'⟩

theorem delPlan_writes (c : Card) (q : Path) : Each LogWrite (delPlan c q) := by
  unfold delPlan
  split <;> simp [LogWrite]

theorem rejectPlan_writes (hs : s.OnlyLog) (message : String) :
    Each LogWrite (rejectPlan s message) := by
  have hs' : (s.wrote (delPlan s.card ["updates", "UPDATE"])).OnlyLog := hs.of_mounts rfl
  unfold rejectPlan reportPlan
  simp only [Each_append, Each_group, Each_cons, Each_nil, and_true]
  refine ⟨delPlan_writes _ _, hs'.appendTo _ _, ?_⟩
  simp [LogWrite]

theorem removed_onlyLog (hs : s.OnlyLog) (ts : List Text) : (s.removed ts).OnlyLog :=
  hs.of_mounts (rmWords_mounts ts s).1

/-- A rejected update writes files of LOG. -/
theorem verdictPlan_writes (hs : s.OnlyLog) (hv : verdict w s ≠ .accepted)
    (plan : List (List Write)) : Each LogWrite (verdictPlan w s plan) := by
  unfold verdictPlan
  cases h : verdict w s with
  | noTarball => exact rejectPlan_writes hs _
  | md5Missing =>
    exact Each_group.mpr ⟨hs.rmWords _, rejectPlan_writes (removed_onlyLog hs _) _⟩
  | md5Failed =>
    have hs' : s.inUpdates.OnlyLog := hs.of_mounts rfl
    exact Each_group.mpr ⟨hs'.rmWords _, Each_group.mpr ⟨(removed_onlyLog hs' _).rmWords _,
      rejectPlan_writes (removed_onlyLog (removed_onlyLog hs' _) _) _⟩⟩
  | accepted => exact absurd h hv

/-- The end of an installation: the settings reset that was also requested, or nothing more. -/
theorem finishPlan_writes : ∃ vs, Each UpdateWrite vs ∧
    (finishPlan x s = vs ∨ finishPlan x s = vs ++ (resetPlan x ++ [[.sync]])) := by
  have hdel := (delPlan_writes s.card ["updates", "UPDATE"]).mono fun _ => LogWrite.update
  unfold finishPlan
  by_cases h : (s.wrote (delPlan s.card ["updates", "UPDATE"])).isThere RESETSETTINGS = true
  · rw [if_pos h]
    refine ⟨_ ++ [_], ?_, Or.inr (List.append_assoc _ [_] _).symm⟩
    cases s.mounts.any (·.isPart .p2) <;> simp [hdel, UpdateWrite]
  · rw [if_neg h]
    exact ⟨_, by simp [hdel, UpdateWrite], Or.inl rfl⟩

theorem flashPlan_writes (p : Path) : Each UpdateWrite (flashPlan x s p) := by
  unfold flashPlan
  cases s.read p <;> simp [UpdateWrite]

theorem mountOf_filling {c : Card} (b : Bool) {m : Mount}
    (h : (⟨c, w.logRam.insert mntLatest .dir, installMounts b, []⟩ : Machine).mountOf mntLatest =
      some m) : m = latestMount := by
  cases b
  · simp [Machine.mountOf, installMounts, logMount, baseMounts] at h
  · simpa [Machine.mountOf, installMounts, latestMount, eq_comm] using h

theorem tar_writes (c : Card) (ts : List Text) :
    ∀ v ∈ writes w x (filling w x c) (.tar ts mntLatest), UpdateWrite v := by
  simp only [writes, act]
  split
  · unfold Machine.unpack
    split_ifs
    · split
      · simp
      · rename_i hm
        have := mountOf_filling (w := w) _ hm
        simp only [latestMount, Mount.mk.injEq, Source.part.injEq] at this
        simp [UpdateWrite, this]
      · simp
    · simp
  · simp

theorem fillPlan_writes (c : Card) (file : Text) : ∃ vs, Each UpdateWrite vs ∧
    (fillPlan w x c file = vs ∨ fillPlan w x c file = vs ++ (resetPlan x ++ [[.sync]])) := by
  obtain ⟨vs, hvs, h⟩ := finishPlan_writes (x := x)
    (s := (filled w x c file).wrote (flashPlan x (filled w x c file) latestLoader))
  refine ⟨group (writes w x (filling w x c) (.tar ((filling w x c).words file) mntLatest))
    (flashPlan x (filled w x c file) latestLoader ++ vs), ?_, ?_⟩
  · exact Each_group.mpr ⟨tar_writes c _, Each_append.mpr ⟨flashPlan_writes _, hvs⟩⟩
  · unfold fillPlan
    rcases h with h | h
    · exact Or.inl (by rw [h])
    · exact Or.inr (by rw [h, group_append, List.append_assoc])

theorem installPlan_writes (c : Card) (file : Text) : ∃ vs, Each UpdateWrite vs ∧
    (installPlan w x c file = vs ∨ installPlan w x c file = vs ++ (resetPlan x ++ [[.sync]])) := by
  obtain ⟨vs, hvs, h⟩ := fillPlan_writes (w := w) (x := x)
    (c.apply (formatted x .p2 .vfat "LATEST")) file
  unfold installPlan
  dsimp only
  refine ⟨[formatted x .p2 .vfat "LATEST"] :: group (if latestMounts x
    (c.apply (formatted x .p2 .vfat "LATEST")) then [.mount .p2] else []) vs, ?_, ?_⟩
  · refine Each_cons.mpr ⟨by simp [formatted, UpdateWrite], Each_group.mpr ⟨?_, hvs⟩⟩
    split_ifs <;> simp [UpdateWrite]
  · rcases h with h | h
    · exact Or.inl (by rw [h])
    · exact Or.inr (by rw [h, List.cons_append, group_append])

/-- **An update writes files of LOG, LATEST and the boot loader**, and may end with a settings
reset. -/
theorem updatePlan_writes (c : Card) : ∃ vs, Each UpdateWrite vs ∧
    (updatePlan w x c = vs ∨ updatePlan w x c = vs ++ (resetPlan x ++ [[.sync]])) := by
  have hs : (choosing w c).OnlyLog := onlyLog_withLog _ _ _
  have hready := (delPlan_writes c ["updates", "READY"]).mono fun _ => LogWrite.update
  suffices h : ∃ vs, Each UpdateWrite vs ∧
      (verdictPlan w (choosing w c) (installPlan w x (readyGone c) (chosen (choosing w c))) = vs ∨
        verdictPlan w (choosing w c) (installPlan w x (readyGone c) (chosen (choosing w c))) =
          vs ++ (resetPlan x ++ [[.sync]])) by
    obtain ⟨vs, hvs, h⟩ := h
    refine ⟨delPlan c ["updates", "READY"] ++ [.sync] :: vs, ?_, ?_⟩
    · simp [hready, hvs, UpdateWrite]
    · unfold updatePlan
      rcases h with h | h
      · exact Or.inl (by rw [h])
      · exact Or.inr (by rw [h, List.append_assoc, List.cons_append])
  by_cases hv : verdict w (choosing w c) = .accepted
  · unfold verdictPlan
    rw [hv]
    exact installPlan_writes _ _
  · exact ⟨_, (verdictPlan_writes hs hv _).mono fun _ => LogWrite.update, Or.inl rfl⟩

end Writes

end Meta3dr
