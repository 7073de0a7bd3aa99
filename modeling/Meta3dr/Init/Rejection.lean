import Meta3dr.Init.UpdatePlan

/-!
# What a rejection removes

A rejected update removes `UPDATE` and, when there is a tarball, the words that the tarball and its
list expand to. It makes no entry but `UPDATEFAILED`.

## Main definitions

* `AtMostFile fs q`: a regular file is at a path of a tree, or nothing
* `removedPaths`: the paths that a rejection removes besides `UPDATE`
* `reporting`: the stage in which a rejection reports

## Main results

* `get_removed`: what `rm` of words leaves of LOG
* `get_reporting`, `After_rejected`: what a rejection leaves of LOG before and after its report
* `get_rejected`: the same where `UPDATEFAILED` is no link
-/

namespace Meta3dr

open Shell Storage Program

/-- A regular file is at the path, or nothing. -/
def AtMostFile (fs : Files) (q : Path) : Prop := ∀ n, fs.get q = some n → ∃ t, n = .file t

theorem AtMostFile.ne_dir {fs : Files} {q : Path} (h : AtMostFile fs q) : fs.get q ≠ some .dir :=
  fun hd => by
    obtain ⟨t, ht⟩ := h _ hd
    cases ht

theorem AtMostFile.ne_link {fs : Files} {q : Path} (h : AtMostFile fs q) (t : Text) :
    fs.get q ≠ some (.link t) := fun hl => by
  obtain ⟨t, ht⟩ := h _ hl
  cases ht

variable (w : World)

/-- The paths that a rejection removes besides `UPDATE`. -/
def removedPaths (s : Machine) : List Path :=
  match verdict w s with
  | .md5Missing => (s.words (chosen s)).map (pathOf s.cwd)
  | .md5Failed =>
    let t := s.inUpdates
    let t' := t.removed (t.words (chosen s))
    (t.words (chosen s)).map (pathOf updates) ++ (t'.words (md5Name (chosen s))).map (pathOf updates)
  | _ => []

/-- The stage of a rejection before `rm` of `UPDATE`. -/
def cleared (s : Machine) : Machine :=
  match verdict w s with
  | .md5Missing => s.removed (s.words (chosen s))
  | .md5Failed =>
    let t := s.inUpdates.removed (s.inUpdates.words (chosen s))
    t.removed (t.words (md5Name (chosen s)))
  | _ => s

/-- The stage in which a rejection reports. -/
def reporting (s : Machine) : Machine :=
  (cleared w s).wrote (delPlan (cleared w s).card ["updates", "UPDATE"])

section Removed

variable {w : World} {x : Circumstances} {s : Machine} {q : Path}

theorem unlink_log (hs : s.LogMounted) (q : Path) :
    s.after (s.unlink ("mnt" :: "log" :: q)) = s.wrote (delPlan s.card q) := by
  rw [hs.unlink, delPlan]
  cases (s.card.files .p4).get q with
  | none => rfl
  | some n => cases n <;> rfl

/-- LOG is mounted at `/mnt/log` only. -/
theorem Machine.OnlyLog.pseudo (ho : s.OnlyLog) {p : Path} (hp : ∀ q, p ≠ "mnt" :: "log" :: q)
    {m : Mount} (hm : s.mountOf p = some m) : ∃ name, m.source = .pseudo name := by
  rcases ho p m hm with rfl | hname
  · have hfind : s.mounts.find? (fun m => m.point.isPrefixOf p) = some logMount := hm
    have hpre : mntLog.isPrefixOf p = true := by simpa [logMount] using List.find?_some hfind
    obtain ⟨q, rfl⟩ := List.isPrefixOf_iff_prefix.mp hpre
    exact absurd rfl (hp q)
  · exact hname

/-- `rm` outside LOG leaves the card alone. -/
theorem unlink_outside (ho : s.OnlyLog) {p : Path} (hp : ∀ q, p ≠ "mnt" :: "log" :: q) :
    (s.after (s.unlink p)).card = s.card := by
  have hnil : (s.unlink p).writes = [] := by
    unfold Machine.unlink
    split
    · rfl
    · rfl
    · split
      · rfl
      · rename_i m hm
        obtain ⟨name, hname⟩ := ho.pseudo hp hm
        simp only [hname]
        split_ifs <;> rfl
  rw [Machine.after, hnil, List.foldl_nil]

/-- Writing outside LOG leaves the card alone. -/
theorem put_outside (ho : s.OnlyLog) {p : Path} (hp : ∀ q, p ≠ "mnt" :: "log" :: q) (n : Node) :
    (s.after (s.put p n)).card = s.card := by
  have hnil : (s.put p n).writes = [] := by
    unfold Machine.put
    split
    · rfl
    · rename_i m hm
      obtain ⟨name, hname⟩ := ho.pseudo hp hm
      simp only [hname]
      split_ifs <;> rfl
  rw [Machine.after, hnil, List.foldl_nil]

/-- What `rm` of a path leaves of LOG. -/
theorem get_unlink (hs : s.LogMounted) (ho : s.OnlyLog) (hq : q ≠ []) (p : Path) :
    ((s.after (s.unlink p)).card.files .p4).get q =
      if p = "mnt" :: "log" :: q ∧ (s.card.files .p4).get q ≠ some .dir then none
      else (s.card.files .p4).get q := by
  by_cases hp : ∃ q', p = "mnt" :: "log" :: q'
  · obtain ⟨q', rfl⟩ := hp
    rw [unlink_log hs]
    by_cases hq' : q' = []
    · subst hq'
      simp [delPlan, Ne.symm hq]
    · have hdel := get_delPlan s.card hq' (p := q)
      by_cases heq : q = q'
      · subst heq
        simpa [Machine.wrote] using hdel
      · simpa [Machine.wrote, heq, Ne.symm heq] using hdel
  · have hne : p ≠ "mnt" :: "log" :: q := fun he => hp ⟨q, he⟩
    rw [unlink_outside ho fun q' he => hp ⟨q', he⟩]
    simp [hne]

theorem removed_cons (s : Machine) (t : Text) (ts : List Text) :
    s.removed (t :: ts) = (s.after (s.unlink (pathOf s.cwd t))).removed ts := by
  cases ts with
  | nil => rfl
  | cons t' ts => simp [Machine.removed, Machine.rmWords, Machine.andThen, Machine.after]

theorem removed_cwd (s : Machine) (ts : List Text) : (s.removed ts).cwd = s.cwd :=
  (rmWords_mounts ts s).2

/-- Two removals in a row. -/
theorem gone_gone {A B : Prop} [Decidable A] [Decidable B] (n : Option Node) :
    (if B ∧ (if A ∧ n ≠ some .dir then none else n) ≠ some .dir then none
      else if A ∧ n ≠ some .dir then none else n) =
      if (A ∨ B) ∧ n ≠ some .dir then none else n := by
  by_cases hA : A <;> by_cases hB : B <;> by_cases hn : n = some .dir <;> simp [hA, hB, hn]

/-- **`rm` of words removes the entries of LOG that the words denote**, but no directory. -/
theorem get_removed (hs : s.LogMounted) (ho : s.OnlyLog) (hq : q ≠ []) (ts : List Text) :
    ((s.removed ts).card.files .p4).get q =
      if "mnt" :: "log" :: q ∈ ts.map (pathOf s.cwd) ∧ (s.card.files .p4).get q ≠ some .dir then none
      else (s.card.files .p4).get q := by
  induction ts generalizing s with
  | nil => simp [Machine.removed, Machine.rmWords]
  | cons t ts ih =>
    obtain ⟨hm, hd⟩ := unlink_mounts s (pathOf s.cwd t)
    have hcwd : (s.after (s.unlink (pathOf s.cwd t))).cwd = s.cwd := hd
    rw [removed_cons, ih (hs.of_mounts hm) (ho.of_mounts hm), get_unlink hs ho hq, hcwd, gone_gone]
    refine if_congr (and_congr_left' ?_) rfl rfl
    rw [List.map_cons, List.mem_cons, eq_comm]

theorem AtMostFile.removed (hs : s.LogMounted) (ho : s.OnlyLog) (hq : q ≠ [])
    (h : AtMostFile (s.card.files .p4) q) (ts : List Text) :
    AtMostFile ((s.removed ts).card.files .p4) q := by
  intro n hn
  rw [get_removed hs ho hq] at hn
  split_ifs at hn
  exact h n hn

/-! ### The report -/

/-- Writing an entry of LOG leaves the others alone. -/
theorem get_put_ne (hs : s.LogMounted) (ho : s.OnlyLog) {p : Path} (hp : p ≠ "mnt" :: "log" :: q)
    (n : Node) : ((s.after (s.put p n)).card.files .p4).get q = (s.card.files .p4).get q := by
  by_cases hlog : ∃ q', p = "mnt" :: "log" :: q'
  · obtain ⟨q', rfl⟩ := hlog
    have hne : q ≠ q' := fun he => hp (he ▸ rfl)
    rw [hs.put, Machine.after_send, List.foldl_cons, List.foldl_nil]
    cases hc : s.card.holds .p4 with
    | none => simp [Card.apply, Card.edit, hc]
    | some fs =>
      rw [Card.apply, Card.files_edit_self _ (by simp [hc])]
      exact Files.get_put_ne _ _ hne
  · rw [put_outside ho fun q' he => hlog ⟨q', he⟩]

/-- A report touches no entry but the one that `UPDATEFAILED` leads to. -/
theorem get_appended_ne (hs : s.LogMounted) (ho : s.OnlyLog) (t : Text)
    (hq : s.follow 40 UPDATEFAILED ≠ "mnt" :: "log" :: q) :
    ((s.after (s.appendTo UPDATEFAILED t)).card.files .p4).get q = (s.card.files .p4).get q := by
  unfold Machine.appendTo
  dsimp only
  split
  · exact get_put_ne hs ho hq _
  · split_ifs
    · exact get_put_ne hs ho hq _
    · rfl
  · rfl

/-- A report cannot be written to a directory. -/
theorem appendTo_dir (t : Text) (hdir : s.get (s.follow 40 UPDATEFAILED) = some .dir) :
    s.after (s.appendTo UPDATEFAILED t) = s := by
  simp only [Machine.appendTo, hdir, Machine.after_fail]

/-- A report makes the missing entry that `UPDATEFAILED` leads to. -/
theorem get_appended_self (hs : s.LogMounted) (t : Text) (hq : q ≠ [])
    (hself : s.follow 40 UPDATEFAILED = "mnt" :: "log" :: q)
    (hlog : (s.card.holds .p4).isSome) (hnone : (s.card.files .p4).get q = none)
    (hdir : (s.card.files .p4).get q.dropLast = some .dir) :
    ((s.after (s.appendTo UPDATEFAILED t)).card.files .p4).get q = some (.file t) := by
  have hlast : ("mnt" :: "log" :: q).dropLast = "mnt" :: "log" :: q.dropLast := by
    cases q with
    | nil => exact absurd rfl hq
    | cons a q => rfl
  have hstat : s.stat ("mnt" :: "log" :: q).dropLast = some .dir :=
    Machine.stat_dir _ (by rw [hlast, hs.get, hdir])
  have hget : s.get ("mnt" :: "log" :: q) = none := (hs.get q).trans hnone
  have happend : s.appendTo UPDATEFAILED t = s.send [.put .p4 q (.file t)] := by
    simp only [Machine.appendTo, hself, hget]
    rw [if_pos hstat, hs.put]
  rw [happend, Machine.after_send, List.foldl_cons, List.foldl_nil, Card.apply,
    Card.files_edit_self _ hlog]
  exact Files.get_put_self _ hdir (by simp [hnone])

/-! ### The rejection -/

theorem After_rmWords (s : Machine) (ts : List Text) (ws : List (List Write)) :
    After Card.apply s.card (group (Machine.rmWords ts s).writes ws) =
      After Card.apply (s.removed ts).card ws := After_group _ _ _ _

theorem After_cleared (hv : verdict w s ≠ .accepted) (plan : List (List Write)) :
    ∃ message, After Card.apply s.card (verdictPlan w s plan) =
      After Card.apply (cleared w s).card (rejectPlan (cleared w s) message) := by
  cases h : verdict w s with
  | accepted => exact absurd h hv
  | noTarball =>
    have hplan : verdictPlan w s plan = rejectPlan s "No update tarball" := by
      rw [verdictPlan, h]
    have hclear : cleared w s = s := by rw [cleared, h]
    exact ⟨_, by rw [hplan, hclear]⟩
  | md5Missing =>
    have hclear : cleared w s = s.removed (s.words (chosen s)) := by rw [cleared, h]
    refine ⟨"MD5 Missing", ?_⟩
    rw [verdictPlan, h, hclear]
    exact After_rmWords s _ _
  | md5Failed =>
    refine ⟨"MD5 Failed", ?_⟩
    rw [verdictPlan, cleared, h]
    dsimp only
    generalize ht : s.inUpdates.removed (s.inUpdates.words (chosen s)) = t
    refine (After_rmWords s.inUpdates _ _).trans ?_
    rw [ht]
    exact After_rmWords t _ _

/-- **A rejection ends with its report.** -/
theorem After_rejected (hv : verdict w s ≠ .accepted) (plan : List (List Write)) :
    ∃ t, After Card.apply s.card (verdictPlan w s plan) =
      ((reporting w s).after ((reporting w s).appendTo UPDATEFAILED t)).card := by
  obtain ⟨message, hclear⟩ := After_cleared hv plan
  refine ⟨message.toList ++ ['\n'], hclear.trans ?_⟩
  unfold reporting
  generalize cleared w s = t
  rw [rejectPlan, After_append, reportPlan, After_group]
  rfl

theorem reporting_mounts : (reporting w s).mounts = s.mounts := by
  have hremoved : ∀ (t : Machine) (ts : List Text), (t.removed ts).mounts = t.mounts := fun t ts =>
    (rmWords_mounts ts t).1
  have hclear : (cleared w s).mounts = s.mounts := by
    unfold cleared
    cases verdict w s with
    | md5Missing => exact hremoved s _
    | md5Failed =>
      dsimp only
      rw [hremoved, hremoved, Machine.inUpdates]
    | noTarball => rfl
    | accepted => rfl
  rw [reporting, Machine.wrote, hclear]

theorem get_cleared (hs : s.LogMounted) (ho : s.OnlyLog) (hq : q ≠ []) :
    ((cleared w s).card.files .p4).get q =
      if "mnt" :: "log" :: q ∈ removedPaths w s ∧ (s.card.files .p4).get q ≠ some .dir then none
      else (s.card.files .p4).get q := by
  cases h : verdict w s with
  | noTarball => simp [cleared, removedPaths, h]
  | accepted => simp [cleared, removedPaths, h]
  | md5Missing =>
    have hclear : cleared w s = s.removed (s.words (chosen s)) := by rw [cleared, h]
    have hpaths : removedPaths w s = (s.words (chosen s)).map (pathOf s.cwd) := by
      rw [removedPaths, h]
    rw [hclear, hpaths, get_removed hs ho hq]
  | md5Failed =>
    have hu : s.inUpdates.LogMounted := hs.of_mounts rfl
    have hou : s.inUpdates.OnlyLog := ho.of_mounts rfl
    have hfirst := get_removed hu hou hq (s.inUpdates.words (chosen s))
    have hcwd := removed_cwd s.inUpdates (s.inUpdates.words (chosen s))
    have hmounted := removed_logMounted hu (s.inUpdates.words (chosen s))
    have honly := removed_onlyLog hou (s.inUpdates.words (chosen s))
    have hcard : s.inUpdates.card = s.card := rfl
    have hroot : s.inUpdates.cwd = updates := rfl
    simp only [cleared, removedPaths, h]
    generalize s.inUpdates.removed (s.inUpdates.words (chosen s)) = t at *
    rw [get_removed hmounted honly hq, hfirst, hcwd, hcard, hroot, gone_gone]
    simp only [List.mem_append]

/-- **Before its report a rejection has removed `UPDATE` and the removed paths**, but no
directory. -/
theorem get_reporting (hs : s.LogMounted) (ho : s.OnlyLog) (hq : q ≠ []) :
    ((reporting w s).card.files .p4).get q =
      if (q = ["updates", "UPDATE"] ∨ "mnt" :: "log" :: q ∈ removedPaths w s) ∧
        (s.card.files .p4).get q ≠ some .dir then none
      else (s.card.files .p4).get q := by
  have hclear := get_cleared (w := w) hs ho hq
  unfold reporting
  generalize cleared w s = t at hclear
  have hdel := get_delPlan t.card (q := ["updates", "UPDATE"]) (p := q) (by simp)
  have hiff : (q = ["updates", "UPDATE"] ∧ (t.card.files .p4).get ["updates", "UPDATE"] ≠ some .dir) ↔
      (q = ["updates", "UPDATE"] ∧ (t.card.files .p4).get q ≠ some .dir) :=
    and_congr_right fun he => by rw [he]
  rw [Machine.wrote, hdel]
  simp only [hiff]
  rw [hclear, gone_gone]
  simp only [or_comm]

/-- **A rejection leaves LOG without `UPDATE` and without the removed paths.** -/
theorem get_rejected (hs : s.LogMounted) (ho : s.OnlyLog) (hv : verdict w s ≠ .accepted)
    (hfailed : AtMostFile (s.card.files .p4) ["updates", "UPDATEFAILED"]) (hq : q ≠ [])
    (hq' : q ≠ ["updates", "UPDATEFAILED"]) (plan : List (List Write)) :
    ((After Card.apply s.card (verdictPlan w s plan)).files .p4).get q =
      if (q = ["updates", "UPDATE"] ∨ "mnt" :: "log" :: q ∈ removedPaths w s) ∧
        (s.card.files .p4).get q ≠ some .dir then none
      else (s.card.files .p4).get q := by
  obtain ⟨t, ht⟩ := After_rejected hv plan
  have hs' : (reporting w s).LogMounted := hs.of_mounts reporting_mounts
  have hlink : ∀ t, (reporting w s).get UPDATEFAILED ≠ some (.link t) := fun t => by
    have hget : (reporting w s).get UPDATEFAILED =
        ((reporting w s).card.files .p4).get ["updates", "UPDATEFAILED"] := hs'.get _
    rw [hget, get_reporting hs ho (by simp)]
    split_ifs
    · simp
    · exact hfailed.ne_link t
  have hne : (reporting w s).follow 40 UPDATEFAILED ≠ "mnt" :: "log" :: q := by
    rw [Machine.follow_of_not_link _ hlink]
    exact fun he => hq' (by simpa [UPDATEFAILED] using he.symm)
  rw [ht, get_appended_ne hs' (ho.of_mounts reporting_mounts) t hne, get_reporting hs ho hq]

end Removed

end Meta3dr
