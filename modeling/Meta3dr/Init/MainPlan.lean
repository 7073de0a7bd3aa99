import Meta3dr.Init.UpdatePlan

/-!
# The writes of a boot

The main part looks for LATEST, for a forced factory reset and, after the check of LOG, for a
request on LOG. What it finds decides whether the boot ends in a restart or reaches
`mount_and_boot`, and what it writes before.

## Main definitions

* `Request`, `request`: the request found on LOG
* `restarts`: the main part ends in a restart
* `mainPlan`: the writes of the main part

## Main results

* `main_exits`, `main_returns`: the main part follows its plan
-/

namespace Meta3dr

open Shell Storage Program

variable (w : World) (x : Circumstances)

/-! ## Requests -/

/-- A request on LOG. -/
inductive Request
  | none | update | factoryReset | resetSettings
  deriving DecidableEq

/-- The request the main part finds on a checked card. -/
def request (c : Card) : Request :=
  if c.mountable .p4 then
    if (withLog w c).isThere UPDATE then .update
    else if (withLog w c).isThere FACTORYRESET then .factoryReset
    else if (withLog w c).isThere RESETSETTINGS then .resetSettings
    else .none
  else .none

theorem request_none_iff (c : Card) : request w c = .none ↔
    (c.mountable .p4 = true → (withLog w c).isThere UPDATE = false ∧
      (withLog w c).isThere FACTORYRESET = false ∧
      (withLog w c).isThere RESETSETTINGS = false) := by
  unfold request
  split_ifs <;> simp_all

/-- On a fresh LOG there is no request. -/
theorem request_of_fresh {c : Card} {kind : FsKind} {label : String}
    (h : c.holds .p4 = some (fresh kind label)) : request w c = .none := by
  have hlog : ∀ q : Path, q ≠ [] → (withLog w c).isThere ("mnt" :: "log" :: q) = false := fun q hq => by
    have hmounted : (withLog w c).LogMounted := Machine.logMounted_log _ _ _
    refine Machine.isThere_none _ ?_
    rw [hmounted.get]
    simp [withLog, Card.files, h, fresh, Files.get, hq]
  rw [request_none_iff]
  exact fun _ => ⟨hlog ["updates", "UPDATE"] (by simp), hlog ["updates", "FACTORYRESET"] (by simp),
    hlog ["updates", "RESETSETTINGS"] (by simp)⟩

/-- The writes of the requests. -/
def requestsPlan (c : Card) : List (List Write) :=
  match request w c with
  | .none => if c.mountable .p4 then [[.mount .p4], [.flush .p4]] else []
  | .update => [.mount .p4] :: updatePlan w x c
  | .factoryReset => [.mount .p4] :: [.flush .p4] :: factoryPlan x w.logRam c
  | .resetSettings => [.mount .p4] :: [.flush .p4] :: (resetPlan x ++ [[.sync]])

section Requests

variable {w x} {c : Card}

theorem get_logRam_mnt : w.logRam.get ["mnt"] = some .dir := by
  rw [World.logRam, Files.get_insert_ne _ _ (by simp)]
  exact earlyRam_mnt w

theorem get_logRam_golden (q : Path) : w.logRam.get ("mnt" :: "golden" :: q) = none := by
  rw [World.logRam, Files.get_insert_ne _ _ (by simp)]
  exact earlyRam_below w "golden" q

theorem act_mkdirLog : act w x true (ready w c) (.mkdir .plain mntLog) =
    ⟨{}, [], w.logRam, baseMounts, []⟩ := by
  have hnone : (ready w c).get mntLog = none := by
    rw [ready, get_base]
    exact earlyRam_below w "log" []
  have hmnt : (ready w c).stat mntLog.dropLast = some .dir :=
    Machine.stat_dir _ ((get_base c w.earlyRam [] []).trans (earlyRam_mnt w))
  have hon : (ready w c).mountOf mntLog = none := mountOf_base _ _ _ _
  simp only [act, hnone, true_and]
  rw [if_pos hmnt, Machine.put, hon]
  rfl

theorem act_mountLog : act w x true (withoutLog w c) (.mountPart .p4 mntLog) =
    if c.mountable .p4 then ⟨{}, [.mount .p4], w.logRam, logMount :: baseMounts, []⟩
    else (withoutLog w c).fail := by
  have hdir : (withoutLog w c).get mntLog = some .dir := by
    rw [withoutLog, get_base, World.logRam, Files.get_insert_self _ _ (by simp)]
  exact act_mountPart (hasDev_base c w.logRam []) hdir rfl

/-- Without LOG none of its entries is there. -/
theorem withoutLog_isThere (q : Path) (h : q ≠ []) :
    (withoutLog w c).isThere ("mnt" :: "log" :: q) = false := by
  refine Machine.isThere_none _ ?_
  rw [withoutLog, get_base, World.logRam, Files.get_insert_ne _ _ (by simpa using h)]
  exact earlyRam_below w "log" q

theorem act_umountLog : act w x true (withLog w c) (.umount [mntLog]) =
    ⟨{}, [.flush .p4], w.logRam, baseMounts, []⟩ := rfl

theorem requests_exits (h : request w c ≠ .none) :
    requests.Exits (step w x) (writes w x) (ready w c) (requestsPlan w x c) .reboot := by
  have hm : c.mountable .p4 = true := by
    by_contra hm
    simp [request, hm] at h
  have hmount := act_mountLog (w := w) (x := x) (c := c)
  rw [if_pos hm] at hmount
  unfold requests requestsPlan
  refine quiet_exits act_mkdirLog ?_
  cases h₁ : (withLog w c).isThere UPDATE with
  | true =>
    have hr : request w c = .update := by simp [request, hm, h₁]
    rw [hr]
    exact sh_exits hmount (isThere_exits h₁ ((update_exits h₁).bind _))
  | false =>
  cases h₂ : (withLog w c).isThere FACTORYRESET with
  | true =>
    have hr : request w c = .factoryReset := by simp [request, hm, h₁, h₂]
    rw [hr]
    exact sh_exits hmount (isThere_exits h₁ (isThere_exits h₂ (sh_exits act_umountLog
      ((factoryReset_exits get_logRam_mnt get_logRam_golden).bind _))))
  | false =>
  cases h₃ : (withLog w c).isThere RESETSETTINGS with
  | true =>
    have hr : request w c = .resetSettings := by simp [request, hm, h₁, h₂, h₃]
    rw [hr]
    refine sh_exits hmount (isThere_exits h₁ (isThere_exits h₂ (isThere_exits h₃ ?_)))
    refine setScreenUpdating_returns.then_exits (setLedUpdating_returns.then_exits
      (sh_exits act_umountLog ((resetSettings_returns (by simp)).bind_exits
        (setLedDone_returns.then_exits (sent_exits (act_sync _ _ _ _) ?_)))))
    exact (Prog.Exits.exit _ _).bind _
  | false => exact absurd (by simp [request, hm, h₁, h₂, h₃]) h

theorem requests_returns (h : request w c = .none) :
    requests.Returns (step w x) (writes w x) (ready w c) (requestsPlan w x c) ()
      (withoutLog w c) := by
  have hmount := act_mountLog (w := w) (x := x) (c := c)
  unfold requests requestsPlan
  rw [h]
  refine quiet_returns act_mkdirLog ?_
  cases hm : c.mountable .p4 with
  | false =>
    have hnone : ∀ e : Path, (withoutLog w c).isThere ("mnt" :: "log" :: "updates" :: e) = false :=
      fun e => withoutLog_isThere _ (by simp)
    have hum : act w x true (withoutLog w c) (.umount [mntLog]) = (withoutLog w c).fail :=
      act_umount_none (find_point_base _)
    rw [hm] at hmount
    refine idle_returns hmount (isThere_returns (hnone _) (isThere_returns (hnone _)
      (isThere_returns (hnone _) ⟨?_, ?_⟩)))
    · simp [sh, writes, hum]
    · simp [sh, step, hum]
  | true =>
    rw [hm] at hmount
    obtain ⟨h₁, h₂, h₃⟩ := (request_none_iff w c).mp h hm
    exact sh_returns hmount (isThere_returns h₁ (isThere_returns h₂ (isThere_returns h₃ ⟨rfl, rfl⟩)))

/-- Without a request the card stays as it is. -/
theorem After_requestsPlan (h : request w c = .none) :
    After Card.apply c (requestsPlan w x c) = c := by
  unfold requestsPlan
  rw [h]
  cases c.mountable .p4 <;> simp [Card.apply]

end Requests

/-! ## The main part -/

/-- The card after the check of LOG. -/
def checked (c : Card) : Card := After Card.apply c (checkLogPlan x c)

/-- The main part ends in a restart. -/
def restarts (c : Card) : Bool :=
  (c.table.entry .p2).isSome && (forced w c || request w (checked x c) != .none)

/-- The writes of the main part. -/
def mainPlan (c : Card) : List (List Write) :=
  if (c.table.entry .p2).isSome then
    if forced w c then factoryPlan x w.earlyRam c
    else checkLogPlan x c ++ requestsPlan w x (checked x c)
  else createPlan x

/-- The initramfs when `mount_and_boot` is entered. -/
def bootRam (c : Card) : Files := if (c.table.entry .p2).isSome then w.logRam else w.earlyRam

/-- The machine when `mount_and_boot` is entered. -/
def booting (c : Card) : Machine :=
  ⟨After Card.apply c (mainPlan w x c), bootRam w c, baseMounts, []⟩

section Main

variable {w x} {c : Card}

theorem act_nodeExists (p : Part) : act w x true (ready w c) (.nodeExists p) =
    (ready w c).check (c.table.entry p).isSome := by
  have hdev : (ready w c).hasDev = true := hasDev_base c w.earlyRam []
  simp only [act, Machine.hasNode, hdev, Bool.true_and]
  rfl

theorem act_forced : act w x true (ready w c)
    (.test ((ready w c).words (args w c).forceFactoryReset ++ ["==".toList, "1".toList])) =
      (ready w c).check (forced w c) := rfl

/-- **A boot with a request on LOG, or with a forced factory reset, restarts the machine.** -/
theorem main_exits (h : restarts w x c = true) :
    main.Exits (step w x) (writes w x) (powerOn w c) (mainPlan w x c) .reboot := by
  simp only [restarts, Bool.and_eq_true] at h
  obtain ⟨h₂, hr⟩ := h
  have hnode := act_nodeExists (w := w) (x := x) (c := c) .p2
  rw [h₂] at hnode
  unfold main mainPlan
  rw [if_pos h₂]
  refine (earlySetup_returns w x c).then_exits ((readArgs_returns w x c).then_exits
    (cond_exits hnode (out_exits rfl (cond_exits act_forced ?_))))
  cases hf : forced w c with
  | true => exact (factoryReset_exits (earlyRam_mnt w) (earlyRam_below w "golden")).bind _
  | false =>
    have hreq : request w (checked x c) ≠ .none := by simpa [hf] using hr
    exact (checkLog_returns w x c).bind_exits ((requests_exits hreq).bind _)

/-- **A boot without a request reaches `mount_and_boot`.** -/
theorem main_returns (h : restarts w x c = false) :
    main.Returns (step w x) (writes w x) (powerOn w c) (mainPlan w x c) (args w c).rootDevice
      (booting w x c) := by
  have hnode := act_nodeExists (w := w) (x := x) (c := c) .p2
  unfold main booting mainPlan bootRam
  refine (earlySetup_returns w x c).then ((readArgs_returns w x c).then (cond_returns hnode ?_))
  cases h₂ : (c.table.entry .p2).isSome with
  | false =>
    exact setScreenUpdating_returns.then (setLedUpdating_returns.then
      ((createPartitions_returns (hasDev_base c w.earlyRam [])).bind_quiet
        (setLedDone_returns.then (.ret _ _))))
  | true =>
    obtain ⟨hf, hreq⟩ : forced w c = false ∧ request w (checked x c) = .none := by
      simpa [restarts, h₂] using h
    have hcard : After Card.apply c (checkLogPlan x c ++ requestsPlan w x (checked x c)) =
        checked x c := by
      rw [After_append]
      exact After_requestsPlan hreq
    rw [hf]
    refine out_returns rfl (cond_returns act_forced ?_)
    rw [hf]
    simp only [if_true, Bool.false_eq_true, if_false, hcard]
    exact (checkLog_returns w x c).bind ((requests_returns hreq).bind_quiet (.ret _ _))

end Main

end Meta3dr
