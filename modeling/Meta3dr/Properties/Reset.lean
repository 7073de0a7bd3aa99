import Meta3dr.Properties.Boots
import Meta3dr.Properties.Verification

/-!
# The resets

Three places of the script repartition the card: the factory reset, the settings reset, and the
settings reset at the end of an update. Each makes partitions by their ranges and formats them by
their numbers, and in each the ranges get the numbers of the canonical layout. What a reset does not
mean to touch survives unless a boot loader image reaches into GOLDEN, whose size nothing checks.

## Main definitions

* `goldenLoader`: the boot loader image of GOLDEN
* `FactoryResets`: what a factory reset is for
* `SettingsReset`: what a settings reset is for

## Main results

* `factoryResets_iff`, `settingsReset_iff`: exactly when the resets do it
* `resets_iff`, `not_resets`: both, and a card where they do not
-/

namespace Meta3dr

open Shell Storage Program

/-! ## What the plans leave -/

section Plans

variable {w : World} {x : Circumstances} {c : Card} {ws vs : List (List Write)} {p : Part}

/-- A formatted partition that later writes avoid is fresh. -/
theorem holds_formatted {kind : FsKind} {label : String} (ws : List (List Write))
    (hvs : Each (Write.Avoids p) vs)
    (htable : Each Write.KeepsTable vs)
    (hp : ((After Card.apply c (ws ++ [formatted {} p kind label] :: vs)).table.entry p).isSome) :
    (After Card.apply c (ws ++ [formatted {} p kind label] :: vs)).holds p =
      some (fresh kind label) := by
  have hformat : Write.KeepsTable (formatted {} p kind label) := trivial
  rw [After_append, After_cons] at hp ⊢
  rw [(After_table htable).1] at hp
  have hpos := hp
  simp only [List.foldl_cons, List.foldl_nil] at hp hpos ⊢
  rw [hformat.apply] at hp
  rw [(After_holds hvs hpos).2]
  exact Card.holds_write_self _ _ hp

theorem removed_goldenOnly (h : c.HasGolden) : (After Card.apply c removePlan).GoldenOnly := by
  obtain ⟨g, hg, hstop⟩ := h
  have hone : ∀ (d : Card) (p q : Part), p ≠ q →
      (d.apply (.rm q)).table.entry p = d.table.entry p := fun d p q hpq =>
    d.table.remove_of_ne hpq
  have hself : ∀ (d : Card) (p : Part), (d.apply (.rm p)).table.entry p = none := fun d p =>
    d.table.remove_self p
  simp only [removePlan, After_cons, After_nil, List.foldl_cons, List.foldl_nil]
  refine ⟨⟨g, ?_, hstop⟩, ?_, ?_, hself _ _⟩
  · rw [hone _ _ _ (by decide), hone _ _ _ (by decide), hone _ _ _ (by decide), hg]
  · rw [hone _ _ _ (by decide), hone _ _ _ (by decide), hself]
  · rw [hone _ _ _ (by decide), hself]

/-- The partitions of a first boot are fresh. -/
theorem create_fresh (h : c.Partial) :
    (After Card.apply c (createPlan {})).holds .p2 = some (fresh .vfat "LATEST") ∧
      (After Card.apply c (createPlan {})).holds .p3 = some (fresh .ext3 "RWFS") ∧
      (After Card.apply c (createPlan {})).holds .p4 = some (fresh .ext3 "LOG") := by
  have hcan := (create_along (x := {}) h).2
  refine ⟨holds_formatted [[.mkpart 100 (some 200)], [.mkpart 200 (some 300)],
      [.mkpart 300 none]] ?_ ?_ (Option.isSome_iff_exists.mpr ⟨_, hcan.latest⟩),
    holds_formatted [[.mkpart 100 (some 200)], [.mkpart 200 (some 300)],
      [.mkpart 300 none], [formatted {} .p2 .vfat "LATEST"]] ?_ ?_
      (Option.isSome_iff_exists.mpr ⟨_, hcan.rwfs⟩),
    holds_formatted [[.mkpart 100 (some 200)], [.mkpart 200 (some 300)],
      [.mkpart 300 none], [formatted {} .p2 .vfat "LATEST"], [formatted {} .p3 .ext3 "RWFS"]] ?_ ?_
      (Option.isSome_iff_exists.mpr ⟨_, hcan.log⟩)⟩ <;>
    simp [formatted, Write.Avoids, Write.KeepsTable]

/-- The partitions of a settings reset are fresh. -/
theorem reset_fresh (h : c.Partial) (h₂ : (c.table.entry .p2).isSome) :
    (After Card.apply c (resetPlan {})).holds .p3 = some (fresh .ext3 "RWFS") ∧
      (After Card.apply c (resetPlan {})).holds .p4 = some (fresh .ext3 "LOG") := by
  have hcan := (reset_along (x := {}) h h₂).2
  refine ⟨holds_formatted [[.rm .p3], [.rm .p4], [.mkpart 200 (some 300)],
      [.mkpart 300 none]] ?_ ?_ (Option.isSome_iff_exists.mpr ⟨_, hcan.rwfs⟩),
    holds_formatted [[.rm .p3], [.rm .p4], [.mkpart 200 (some 300)],
      [.mkpart 300 none], [formatted {} .p3 .ext3 "RWFS"]] ?_ ?_
      (Option.isSome_iff_exists.mpr ⟨_, hcan.log⟩)⟩ <;>
    simp [formatted, Write.Avoids, Write.KeepsTable]

theorem removePlan_avoids : Each (Write.Avoids .p1) removePlan := by
  simp [removePlan, Write.Avoids]

theorem createPlan_avoids : Each (Write.Avoids .p1) (createPlan x) := by
  simp [createPlan, formatted, Write.Avoids]

theorem resetPlan_avoids (hp : p = .p1 ∨ p = .p2) : Each (Write.Avoids p) (resetPlan x) := by
  rcases hp with rfl | rfl <;> simp [resetPlan, formatted, Write.Avoids]

/-- The end of an installation does not touch LATEST. -/
theorem finishPlan_avoids (s : Machine) : Each (Write.Avoids .p2) (finishPlan {} s) := by
  have hdel := (delPlan_writes s.card ["updates", "UPDATE"]).mono fun _ hv =>
    hv.avoids (p := .p2) (by decide)
  have hreset := resetPlan_avoids (x := {}) (p := .p2) (Or.inr rfl)
  unfold finishPlan
  split_ifs <;> simp [hdel, hreset, Write.Avoids]

theorem resetPlan_keepsLoader : Each Write.KeepsLoader (resetPlan x) := by
  simp [resetPlan, formatted, Write.KeepsLoader]

end Plans

/-! ## The factory reset -/

section Factory

/-- The bytes of GOLDEN's boot loader image, when GOLDEN mounts and has one. -/
def goldenLoader (r : Files) (c : Card) : Option Text :=
  if c.mountable .p1 then
    ((withGolden r c).read (mntGolden ++ ["u-boot.imx"])).map
      ((withGolden r c).bytes (mntGolden ++ ["u-boot.imx"]))
  else none

/-- A factory reset from the initramfs `r`, run to its end, restarts the machine and leaves the
canonical layout with fresh partitions, GOLDEN as it was, and GOLDEN's boot loader. -/
def FactoryResets (w : World) (r : Files) (c : Card) : Prop :=
  ∃ s, factoryReset.run (step w {}) ⟨c, r, baseMounts, []⟩ = (.error .reboot, s) ∧
    s.card.Canonical ∧ s.card.holds .p2 = some (fresh .vfat "LATEST") ∧
    s.card.holds .p3 = some (fresh .ext3 "RWFS") ∧ s.card.holds .p4 = some (fresh .ext3 "LOG") ∧
    s.card.holds .p1 = c.holds .p1 ∧ ∀ t ∈ goldenLoader r c, t <+: s.card.loader

variable {w : World} {c d : Card} {r : Files} {t : Text}

/-- The image depends on what GOLDEN holds. -/
theorem goldenLoader_congr (he : d.table.entry .p1 = c.table.entry .p1)
    (hh : d.holds .p1 = c.holds .p1) : goldenLoader r d = goldenLoader r c := by
  have hfiles : d.files .p1 = c.files .p1 := by rw [Card.files, hh, Card.files]
  have halike : (withGolden r c).Alike (withGolden r d) := by
    refine ⟨fun p => ?_, fun _ => rfl, rfl⟩
    have hm : (withGolden r d).mountOf p = (withGolden r c).mountOf p := rfl
    unfold Machine.treeOf
    rw [hm]
    cases h : (withGolden r c).mountOf p with
    | none => rfl
    | some m =>
      have hmem := List.mem_of_find?_eq_some h
      simp only [withGolden, goldenMount, baseMounts, List.mem_cons, List.not_mem_nil,
        or_false] at hmem
      rcases hmem with rfl | rfl | rfl | rfl
      · exact hfiles
      all_goals rfl
  have hroom : d.room .p1 = c.room .p1 := by rw [Card.room, he, Card.room]
  have hbytes : (withGolden r d).bytes (mntGolden ++ ["u-boot.imx"]) =
      (withGolden r c).bytes (mntGolden ++ ["u-boot.imx"]) :=
    funext fun t => congrArg t.take hroom
  rw [goldenLoader, goldenLoader, halike.read, hbytes, Card.mountable, hh, Card.mountable]

/-- What flashing GOLDEN's image does. -/
theorem After_goldenPlan : After Card.apply c (goldenPlan {} r c) =
    (goldenLoader r c).elim c fun t => c.apply (.flash t) := by
  unfold goldenPlan goldenLoader flashPlan
  split_ifs with h
  · cases (withGolden r c).read (mntGolden ++ ["u-boot.imx"]) <;> simp [Card.apply]
  · simp [Card.apply]

theorem mountable_of_goldenLoader (ht : t ∈ goldenLoader r c) : c.mountable .p1 = true := by
  unfold goldenLoader at ht
  split_ifs at ht with h
  · exact h
  · cases ht

/-- GOLDEN's image is not larger than GOLDEN. -/
theorem length_goldenLoader (h : c.HasGolden) (ht : t ∈ goldenLoader r c) :
    t = [] ∨ 1024 + t.length ≤ 100 * MB := by
  obtain ⟨g, hg, hstop⟩ := h
  unfold goldenLoader at ht
  split_ifs at ht
  · obtain ⟨u, -, rfl⟩ := Option.map_eq_some_iff.mp ht
    have hbytes : (withGolden r c).bytes (mntGolden ++ ["u-boot.imx"]) u =
        u.take (g.stop - g.start - 1024) := by
      change u.take (c.room .p1) = _
      rw [Card.room, hg, Option.elim_some]
    rw [hbytes]
    by_cases hsize : g.stop - g.start - 1024 = 0
    · exact Or.inl (by rw [hsize, List.take_zero])
    · have hle : (u.take (g.stop - g.start - 1024)).length ≤ g.stop - g.start - 1024 :=
        List.length_take_le _ _
      exact Or.inr (by omega)
  · cases ht

theorem factoryReset_card (hmnt : r.get ["mnt"] = some .dir)
    (hgolden : ∀ q, r.get ("mnt" :: "golden" :: q) = none) :
    ∃ s, factoryReset.run (step w {}) ⟨c, r, baseMounts, []⟩ = (.error .reboot, s) ∧
      s.card = After Card.apply c (factoryPlan {} r c) := by
  have hexits := factoryReset_exits (w := w) (x := {}) (c := c) hmnt hgolden
  have hcard := Prog.run_persistent (g := Machine.card) (step_card w {}) factoryReset
    ⟨c, r, baseMounts, []⟩
  rw [hexits.schedule] at hcard
  exact ⟨_, Prog.run_eq _ hexits.run, hcard⟩

/-- The card before GOLDEN's image is flashed. -/
theorem After_factoryPlan (h : c.HasGolden) : After Card.apply c (factoryPlan {} r c) =
    (goldenLoader r c).elim (After Card.apply c (removePlan ++ createPlan {}))
      fun t => (After Card.apply c (removePlan ++ createPlan {})).apply (.flash t) := by
  have hsome : (c.table.entry .p1).isSome := by
    obtain ⟨g, hg, -⟩ := h
    simp [hg]
  obtain ⟨he₁, hh₁⟩ := After_holds (c := c)
    (Each_append.mpr ⟨removePlan_avoids, createPlan_avoids (x := {})⟩) hsome
  rw [factoryPlan, ← List.append_assoc, After_append, After_goldenPlan, goldenLoader_congr he₁ hh₁]

/-- The boot loader area after a factory reset. -/
theorem loader_factoryPlan (h : c.HasGolden) : (After Card.apply c (factoryPlan {} r c)).loader =
    (goldenLoader r c).elim c.loader fun t => t ++ c.loader.drop t.length := by
  have hloader : (After Card.apply c (removePlan ++ createPlan {})).loader = c.loader :=
    After_loader (by simp [removePlan, createPlan, formatted, Write.KeepsLoader])
  rw [After_factoryPlan h]
  cases goldenLoader r c with
  | none => exact hloader
  | some t =>
    rw [Option.elim_some, Option.elim_some, ← hloader]
    rfl

/-- **A factory reset leaves the canonical layout with fresh partitions**, whatever it flashes. -/
theorem factory_left (h : c.HasGolden) : (After Card.apply c (factoryPlan {} r c)).Canonical ∧
    (After Card.apply c (factoryPlan {} r c)).holds .p2 = some (fresh .vfat "LATEST") ∧
    (After Card.apply c (factoryPlan {} r c)).holds .p3 = some (fresh .ext3 "RWFS") ∧
    (After Card.apply c (factoryPlan {} r c)).holds .p4 = some (fresh .ext3 "LOG") := by
  have hpart := (removed_goldenOnly h).toPartial
  have hcan := (create_along (x := {}) hpart).2
  obtain ⟨h₂, h₃, h₄⟩ := create_fresh hpart
  rw [← After_append] at hcan h₂ h₃ h₄
  rw [After_factoryPlan h]
  cases ht : goldenLoader r c with
  | none => exact ⟨hcan, h₂, h₃, h₄⟩
  | some t =>
    have hlen := length_goldenLoader h ht
    rw [Option.elim_some]
    refine ⟨hcan.congr rfl rfl, ?_, ?_, ?_⟩
    · rw [(hcan.spares (by decide) hlen).holds, h₂]
    · rw [(hcan.spares (by decide) hlen).holds, h₃]
    · rw [(hcan.spares (by decide) hlen).holds, h₄]

/-- What a factory reset leaves of GOLDEN. -/
theorem factory_golden_iff (h : c.HasGolden) :
    (After Card.apply c (factoryPlan {} r c)).holds .p1 = c.holds .p1 ↔
      ∀ t ∈ goldenLoader r c, c.Spares .p1 t := by
  have hsome : (c.table.entry .p1).isSome := by
    obtain ⟨g, hg, -⟩ := h
    simp [hg]
  obtain ⟨he₁, hh₁⟩ := After_holds (c := c)
    (Each_append.mpr ⟨removePlan_avoids, createPlan_avoids (x := {})⟩) hsome
  rw [After_factoryPlan h]
  generalize After Card.apply c (removePlan ++ createPlan {}) = d at he₁ hh₁ ⊢
  cases ht : goldenLoader r c with
  | none => simp [hh₁]
  | some t =>
    have hkeep : d.holds .p1 ≠ none := by
      obtain ⟨fs, hfs, -⟩ := (Option.any_eq_true _ _).mp (mountable_of_goldenLoader ht)
      simp [hh₁, hfs]
    simp only [Option.elim_some, Option.mem_def, Option.some.injEq, forall_eq']
    rw [← hh₁, Card.holds_flash_iff, or_iff_right hkeep]
    exact ⟨fun hs => hs.congr he₁.symm, fun hs => hs.congr he₁⟩

/-- **A factory reset does what it is for exactly when GOLDEN's boot loader image does not reach
GOLDEN.** -/
theorem factoryResets_iff (h : c.HasGolden) (hmnt : r.get ["mnt"] = some .dir)
    (hgolden : ∀ q, r.get ("mnt" :: "golden" :: q) = none) :
    FactoryResets w r c ↔ ∀ t ∈ goldenLoader r c, c.Spares .p1 t := by
  obtain ⟨s, hrun, hcard⟩ := factoryReset_card (w := w) (c := c) hmnt hgolden
  obtain ⟨hcan, h₂, h₃, h₄⟩ := factory_left (r := r) h
  have hiff := factory_golden_iff (r := r) h
  have hloader := loader_factoryPlan (r := r) h
  rw [← hcard] at hcan h₂ h₃ h₄ hiff hloader
  rw [← hiff]
  constructor
  · rintro ⟨s', hrun', -, -, -, -, hgold, -⟩
    obtain rfl : s = s' := congrArg Prod.snd (hrun.symm.trans hrun')
    exact hgold
  · intro hgold
    refine ⟨s, hrun, hcan, h₂, h₃, h₄, hgold, fun t ht => ?_⟩
    rw [hloader, Option.mem_def.mp ht, Option.elim_some]
    exact List.prefix_append _ _

end Factory

/-! ## The settings reset -/

section Settings

variable {w : World} {c c' d : Card}

/-- RWFS and LOG are made anew, and nothing else has changed. -/
structure ResetFrom (c c' : Card) : Prop where
  canonical : c'.Canonical
  rwfs : c'.holds .p3 = some (fresh .ext3 "RWFS")
  log : c'.holds .p4 = some (fresh .ext3 "LOG")
  golden : c'.holds .p1 = c.holds .p1
  latest : c'.holds .p2 = c.holds .p2
  loader : c'.loader = c.loader

theorem resetFrom (h : c.Canonical) : ResetFrom c (After Card.apply c (resetPlan {})) := by
  obtain ⟨g, hg, -⟩ := h.golden
  have h₂ : (c.table.entry .p2).isSome := by simp [h.latest]
  obtain ⟨h₃, h₄⟩ := reset_fresh h.toPartial h₂
  exact {
    canonical := (reset_along h.toPartial h₂).2
    rwfs := h₃
    log := h₄
    golden := (After_holds (resetPlan_avoids (Or.inl rfl)) (by simp [hg])).2
    latest := (After_holds (resetPlan_avoids (Or.inr rfl)) h₂).2
    loader := After_loader resetPlan_keepsLoader }

/-- The settings reset after an entry of LOG is removed. -/
theorem resetFrom_del (h : c.Canonical) (q : Path) :
    ResetFrom c (After Card.apply (After Card.apply c (delPlan c q)) (resetPlan {})) := by
  have hdel := delPlan_writes c q
  have htab := After_table (c := c) (hdel.mono fun _ => LogWrite.keepsTable)
  have hreset := resetFrom (h.congr htab.1 htab.2)
  obtain ⟨g, hg, -⟩ := h.golden
  have hframe : ∀ p ≠ .p4, (c.table.entry p).isSome →
      (After Card.apply c (delPlan c q)).holds p = c.holds p := fun p hp hpos =>
    (After_holds (hdel.mono fun _ hv => hv.avoids hp) hpos).2
  exact { hreset with
    golden := hreset.golden.trans (hframe .p1 (by decide) (by simp [hg]))
    latest := hreset.latest.trans (hframe .p2 (by decide) (by simp [h.latest]))
    loader := hreset.loader.trans (After_loader (hdel.mono fun _ => LogWrite.keepsLoader)) }

/-- A card with a clean LOG and without a request is booted as it is. -/
theorem CleanLog.enters (hlog : CleanLog c) (h₂ : (c.table.entry .p2).isSome)
    (hforced : forced w c = false) (hreq : request w c = .none) : Enters w c c := by
  refine enters_iff.mpr ⟨by simp [restarts, hforced, hlog.checked, hreq], ?_⟩
  rw [mainPlan, if_pos h₂, hforced, if_neg (by simp), After_append]
  have hcheck : After Card.apply c (checkLogPlan {} c) = c := hlog.checked
  rw [hcheck, hlog.checked, After_requestsPlan hreq]

theorem ResetFrom.enters (h : ResetFrom c c') (hforced : forced w c = false) : Enters w c' c' :=
  (cleanLog_of_fresh h.log).enters (by simp [h.canonical.latest]) ((forced_eq w c c').trans hforced)
    (request_of_fresh w h.log)

/-- A boot with a request on a clean LOG restarts with the card of the request. -/
theorem restarts_request (h₂ : (c.table.entry .p2).isSome) (hforced : forced w c = false)
    (hreq : request w (checked {} c) ≠ .none) :
    Restarts w {} c (After Card.apply (checked {} c) (requestsPlan w {} (checked {} c))) := by
  refine restarts_iff.mpr ⟨by simp [restarts, h₂, hreq], ?_⟩
  rw [mainPlan, if_pos h₂, hforced, if_neg (by simp), After_append]
  rfl

/-- A settings reset that comes alone. -/
theorem bootsTo_reset (h : c.Canonical) (hforced : forced w c = false)
    (hlog : c.fsckStatus .p4 .ext3 < 4) (hreq : request w (checked {} c) = .resetSettings) :
    ∃ c', BootsTo w c c' ∧ ResetFrom (checked {} c) c' := by
  obtain ⟨htable, hcap, -, -⟩ := checked_frame (x := {}) hlog
  have hreset := resetFrom (h.congr htable hcap)
  refine ⟨_, .restarts ?_ (.enters (hreset.enters ((forced_eq w c _).trans hforced))), hreset⟩
  have hr := restarts_request (w := w) (by simp [h.latest]) hforced (by simp [hreq])
  have hplan : After Card.apply (checked {} c) (requestsPlan w {} (checked {} c)) =
      After Card.apply (checked {} c) (resetPlan {}) := by
    simp [requestsPlan, hreq, Card.apply]
  exact hplan ▸ hr

/-! ### With an update -/

variable (w c) in
/-- A canonical card with a LOG that can be repaired and a request for a settings reset, alone or
with an update. The flags are regular files. -/
structure Flagged : Prop where
  canonical : c.Canonical
  log : c.fsckStatus .p4 .ext3 < 4
  unforced : forced w c = false
  resetSettings : ∃ t, (c.files .p4).get ["updates", "RESETSETTINGS"] = some (.file t)
  noFactoryReset : (c.files .p4).get ["updates", "FACTORYRESET"] = none
  update : AtMostFile (c.files .p4) ["updates", "UPDATE"]
  failed : AtMostFile (c.files .p4) ["updates", "UPDATEFAILED"]

/-- Among files the request is an update when `UPDATE` is there, and a settings reset otherwise. -/
theorem request_of_flags (hm : c.mountable .p4 = true)
    (hreset : AtMostFile (c.files .p4) ["updates", "RESETSETTINGS"])
    (hfactory : (c.files .p4).get ["updates", "FACTORYRESET"] = none)
    (hupdate : AtMostFile (c.files .p4) ["updates", "UPDATE"]) :
    request w c = if (c.files .p4).get ["updates", "UPDATE"] ≠ none then .update
      else if (c.files .p4).get ["updates", "RESETSETTINGS"] ≠ none then .resetSettings
      else .none := by
  have hmounted : (withLog w c).LogMounted := Machine.logMounted_log _ _ _
  have hthere : ∀ q, AtMostFile (c.files .p4) q →
      ((withLog w c).isThere ("mnt" :: "log" :: q) = true ↔ (c.files .p4).get q ≠ none) := by
    intro q hq
    have hget : (withLog w c).get ("mnt" :: "log" :: q) = (c.files .p4).get q := hmounted.get q
    rw [Machine.isThere, Machine.stat_of_get _ fun t => hget ▸ hq.ne_link t, hget,
      Option.isSome_iff_ne_none]
  have hnone : (withLog w c).isThere FACTORYRESET = false :=
    Machine.isThere_none _ ((hmounted.get _).trans hfactory)
  simp only [request, hm, if_true, hnone, hthere _ hupdate, hthere _ hreset, Bool.false_eq_true,
    if_false]

/-- The card after the check of LOG, where the update branch starts. -/
abbrev updating (c : Card) : Card := readyGone (checked {} c)

/-- The card on which an accepted update is finished. -/
abbrev updated (w : World) (c : Card) : Card :=
  installed w (updating c) (chosen (choosing w (checked {} c)))

variable (w c c') in
/-- LATEST and the boot loader as the accepted update wrote them. -/
def Updated : Prop :=
  (∃ fs, c'.holds .p2 = some fs ∧ fs.kind = .vfat ∧ fs.label = "LATEST" ∧
    fs.files = (∅ : Files).extract (archive w (updating c) (chosen (choosing w (checked {} c))))) ∧
  c'.loader = (newLoader w (updating c) (chosen (choosing w (checked {} c)))).elim c.loader
    fun t => t ++ c.loader.drop t.length

variable (w c) in
/-- The boots up to `mount_and_boot` leave the canonical layout with fresh settings, no request,
GOLDEN as it was, and LATEST and the boot loader as an accepted update wrote them, if there was
one. -/
def SettingsReset : Prop :=
  ∃ c', BootsTo w c c' ∧ c'.Canonical ∧ c'.holds .p3 = some (fresh .ext3 "RWFS") ∧
    c'.holds .p4 = some (fresh .ext3 "LOG") ∧ request w c' = .none ∧
    c'.holds .p1 = c.holds .p1 ∧
    if installs w {} c then Updated w c c' else c'.holds .p2 = c.holds .p2 ∧ c'.loader = c.loader

variable (w c) in
/-- The boot loader image of an accepted update does not reach what GOLDEN holds, and a rejection
does not remove the request for the settings reset. -/
structure Spared : Prop where
  golden : installs w {} c = true →
    ∀ t ∈ newLoader w (updating c) (chosen (choosing w (checked {} c))),
      c.holds .p1 = none ∨ c.Spares .p1 t
  request : request w (checked {} c) = .update → installs w {} c = false →
    RESETSETTINGS ∉ removedPaths w (choosing w (checked {} c))

/-- The boot of an update, and the card it leaves. -/
theorem restarts_update (h₂ : (c.table.entry .p2).isSome) (hforced : forced w c = false)
    (hreq : request w (checked {} c) = .update) :
    Restarts w {} c (After Card.apply (updating c) (verdictPlan w (choosing w (checked {} c))
      (installPlan w {} (updating c) (chosen (choosing w (checked {} c)))))) := by
  have hr := restarts_request (w := w) h₂ hforced (by simp [hreq])
  have hplan : requestsPlan w {} (checked {} c) =
      [.mount .p4] :: updatePlan w {} (checked {} c) := by rw [requestsPlan, hreq]
  rw [hplan, updatePlan, After_cons, After_append, After_cons] at hr
  exact hr

/-- The boot of an accepted update leaves the boot loader image of the archive. -/
theorem loader_of_installs (hinst : installs w {} c = true) (hr : Restarts w {} c c') :
    c'.loader = (newLoader w (updating c) (chosen (choosing w (checked {} c)))).elim
      (updating c).loader fun t => t ++ (updating c).loader.drop t.length := by
  simp only [installs, Bool.and_eq_true, Bool.not_eq_true', beq_iff_eq] at hinst
  obtain ⟨⟨⟨h₂, hforced⟩, hreq⟩, hv⟩ := hinst
  have hboot := (restarts_iff.mp (restarts_update h₂ hforced hreq)).2
  rw [← (restarts_iff.mp hr).2, verdictPlan, hv] at hboot
  have hcheck : Each (Write.Avoids .p2) (checkLogPlan {} c) := by
    unfold checkLogPlan
    split_ifs <;> simp [formatted, Write.Avoids]
  have hdel := (delPlan_writes (checked {} c) ["updates", "READY"]).mono fun _ => LogWrite.keepsTable
  have hpos : ((updating c).table.entry .p2).isSome := by
    rw [updating, readyGone, (After_table hdel).1, checked, (After_holds hcheck h₂).1]
    exact h₂
  rw [← hboot]
  dsimp only
  rw [After_installPlan hpos, After_loader (finishPlan_keepsLoader _ _), installed_loader hpos]

/-- What the update branch finds when it starts. -/
theorem updating_frame (hcan : c.Canonical) (hlog : c.fsckStatus .p4 .ext3 < 4) :
    (updating c).Canonical ∧ CleanLog (updating c) ∧
    (updating c).loader = c.loader ∧ (∀ p ≠ .p4, (updating c).holds p = c.holds p) ∧
    (updating c).table = c.table ∧
    ∀ q ≠ ["updates", "READY"], ((updating c).files .p4).get q = (c.files .p4).get q := by
  obtain ⟨htable, hcap, hloader, hholds⟩ := checked_frame (x := {}) hlog
  obtain ⟨hclean, hfiles⟩ := checked_clean (x := {}) hlog
  have hcan' := hcan.congr htable hcap
  have hdel := delPlan_writes (checked {} c) ["updates", "READY"]
  have htab := After_table (c := checked {} c) (hdel.mono fun _ => LogWrite.keepsTable)
  refine ⟨hcan'.congr htab.1 htab.2, hclean.after hdel, ?_, fun p hp => ?_, htab.1.trans htable,
    fun q hq => ?_⟩
  · exact (After_loader (hdel.mono fun _ => LogWrite.keepsLoader)).trans hloader
  · have hpos : ((checked {} c).table.entry p).isSome := by
      rw [htable]
      obtain ⟨g, hg, -⟩ := hcan.golden
      cases p <;> simp [hg, hcan.latest, hcan.rwfs, hcan.log]
    exact (After_holds (hdel.mono fun _ hv => hv.avoids hp) hpos).2.trans (hholds p hp)
  · rw [updating, get_readyGone _ hq, hfiles]

section Flagged

variable (h : Flagged w c)
include h

/-- The request of a flagged card. -/
theorem Flagged.request_eq : Meta3dr.request w (checked {} c) =
    if (c.files .p4).get ["updates", "UPDATE"] ≠ none then .update else .resetSettings := by
  obtain ⟨hclean, hfiles⟩ := checked_clean (x := {}) h.log
  obtain ⟨t, ht⟩ := h.resetSettings
  rw [request_of_flags hclean.mountable (by rw [hfiles]; exact fun n hn => ⟨t, by simp_all⟩)
    (by rw [hfiles]; exact h.noFactoryReset) (by rw [hfiles]; exact h.update), hfiles]
  simp [ht]

/-- A settings reset that comes alone does what it is for. -/
theorem Flagged.alone (hreq : Meta3dr.request w (checked {} c) = .resetSettings) :
    SettingsReset w c ∧ Spared w c := by
  obtain ⟨-, -, hloader, hholds⟩ := checked_frame (x := {}) h.log
  obtain ⟨c', hboots, hreset⟩ := bootsTo_reset h.canonical h.unforced h.log hreq
  have hinst : installs w {} c = false := by simp [installs, hreq]
  refine ⟨⟨c', hboots, hreset.canonical, hreset.rwfs, hreset.log, request_of_fresh w hreset.log,
    hreset.golden.trans (hholds .p1 (by decide)), ?_⟩, ⟨by simp [hinst], by simp [hreq]⟩⟩
  rw [if_neg (by simp [hinst])]
  exact ⟨hreset.latest.trans (hholds .p2 (by decide)), hreset.loader.trans hloader⟩

theorem Flagged.installs_iff (hreq : Meta3dr.request w (checked {} c) = .update) :
    installs w {} c = true ↔ verdict w (choosing w (checked {} c)) = .accepted := by
  simp [installs, h.canonical.latest, h.unforced, hreq]

/-- The end of an accepted update: the settings are reset. -/
theorem Flagged.finish : ∃ e, ResetFrom (updated w c) e ∧ e = After Card.apply (updating c)
    (installPlan w {} (updating c) (chosen (choosing w (checked {} c)))) := by
  obtain ⟨hcan, -, -, -, -, hfiles⟩ := updating_frame h.canonical h.log
  obtain ⟨t, ht⟩ := h.resetSettings
  have hlog := installed_holds (w := w) (n := chosen (choosing w (checked {} c))) hcan (Or.inr rfl)
  have hget : ((updated w c).files .p4).get ["updates", "RESETSETTINGS"] = some (.file t) := by
    rw [Card.files, hlog]
    exact (hfiles _ (by simp)).trans ht
  refine ⟨_, ?_, (After_installPlan (latest_isSome hcan)).symm⟩
  rw [After_finishPlan, if_pos (isThere_resetSettings _ hget)]
  exact resetFrom_del (installed_frame hcan).1 _

/-- An accepted update with a settings reset does what it is for exactly when its boot loader image
does not reach GOLDEN. -/
theorem Flagged.accepted (hreq : Meta3dr.request w (checked {} c) = .update)
    (hv : verdict w (choosing w (checked {} c)) = .accepted) :
    SettingsReset w c ↔ Spared w c := by
  obtain ⟨hcan, -, hloader, hholds, htable, -⟩ := updating_frame h.canonical h.log
  have hinst := (h.installs_iff hreq).mpr hv
  obtain ⟨e, hreset, he⟩ := h.finish
  have hrestart := restarts_update (by simp [h.canonical.latest]) h.unforced hreq
  have hvplan : verdictPlan w (choosing w (checked {} c)) (installPlan w {} (updating c)
      (chosen (choosing w (checked {} c)))) = installPlan w {} (updating c)
        (chosen (choosing w (checked {} c))) := by rw [verdictPlan, hv]
  rw [hvplan, ← he] at hrestart
  have hboots : BootsTo w c e :=
    .restarts hrestart (.enters (hreset.enters ((forced_eq w c (updated w c)).trans h.unforced)))
  have hlatest := installed_latest (w := w) (n := chosen (choosing w (checked {} c))) hcan
  have hnew := installed_loader (w := w) (n := chosen (choosing w (checked {} c)))
    (latest_isSome hcan)
  have hgolden := installed_golden_iff (w := w) (n := chosen (choosing w (checked {} c))) hcan
  have hspares : ∀ t, (updating c).Spares .p1 t ↔ c.Spares .p1 t := fun t => by
    rw [Card.Spares, Card.Spares, htable]
  simp only [hholds .p1 (by decide), hspares] at hgolden
  have hupdated : Updated w c e := by
    refine ⟨?_, ?_⟩
    · rw [hreset.latest]
      exact hlatest
    · rw [hreset.loader, hnew, hloader]
  have hiff : SettingsReset w c ↔ e.holds .p1 = c.holds .p1 := by
    constructor
    · rintro ⟨c', hc', -, -, -, -, hgold, -⟩
      rwa [← hc'.unique hboots]
    · intro hgold
      refine ⟨e, hboots, hreset.canonical, hreset.rwfs, hreset.log, request_of_fresh w hreset.log,
        hgold, ?_⟩
      rw [if_pos hinst]
      exact hupdated
  rw [hiff, hreset.golden, hgolden]
  exact ⟨fun hg => ⟨fun _ => hg, by simp [hinst]⟩, fun hs => hs.golden hinst⟩

variable (w c) in
/-- The card that a rejected update leaves. -/
def rejected : Card := After Card.apply (updating c) (verdictPlan w (choosing w (checked {} c))
  (installPlan w {} (updating c) (chosen (choosing w (checked {} c)))))

/-- A rejection changes files of LOG. -/
theorem Flagged.rejected_frame (hv : verdict w (choosing w (checked {} c)) ≠ .accepted) :
    (rejected w c).Canonical ∧ CleanLog (rejected w c) ∧ (rejected w c).loader = c.loader ∧
      ∀ p ≠ .p4, (rejected w c).holds p = c.holds p := by
  obtain ⟨hcan, hclean, hloader, hholds, -, -⟩ := updating_frame h.canonical h.log
  have hwrites := verdictPlan_writes (s := choosing w (checked {} c)) (onlyLog_withLog _ _ _) hv
    (installPlan w {} (updating c) (chosen (choosing w (checked {} c))))
  have htab := After_table (c := updating c) (hwrites.mono fun _ => LogWrite.keepsTable)
  have hpos : ∀ p, ((updating c).table.entry p).isSome := fun p => by
    obtain ⟨g, hg, -⟩ := hcan.golden
    cases p <;> simp [hg, hcan.latest, hcan.rwfs, hcan.log]
  exact ⟨hcan.congr htab.1 htab.2, hclean.after hwrites,
    (After_loader (hwrites.mono fun _ => LogWrite.keepsLoader)).trans hloader,
    fun p hp => (After_holds (hwrites.mono fun _ hw => hw.avoids hp) (hpos p)).2.trans
      (hholds p hp)⟩

/-- What a rejection leaves of LOG. -/
theorem Flagged.get_rejected (hv : verdict w (choosing w (checked {} c)) ≠ .accepted) {q : Path}
    (hq : q ≠ []) (hready : q ≠ ["updates", "READY"]) (hfailed : q ≠ ["updates", "UPDATEFAILED"]) :
    ((rejected w c).files .p4).get q =
      if (q = ["updates", "UPDATE"] ∨
          "mnt" :: "log" :: q ∈ removedPaths w (choosing w (checked {} c))) ∧
        (c.files .p4).get q ≠ some .dir then none
      else (c.files .p4).get q := by
  obtain ⟨-, -, -, -, -, hfiles⟩ := updating_frame h.canonical h.log
  have hfile : AtMostFile ((choosing w (checked {} c)).card.files .p4) ["updates", "UPDATEFAILED"] :=
    fun n hn => h.failed n ((hfiles _ (by simp)).symm.trans hn)
  have hget := Meta3dr.get_rejected (s := choosing w (checked {} c)) (q := q)
    (Machine.logMounted_log _ _ _) (onlyLog_withLog _ _ _) hv hfile hq hfailed
    (installPlan w {} (updating c) (chosen (choosing w (checked {} c))))
  have hbefore : ((choosing w (checked {} c)).card.files .p4).get q = (c.files .p4).get q :=
    hfiles q hready
  rw [hbefore] at hget
  exact hget

/-- A rejected update with a settings reset does what it is for exactly when the rejection leaves
the request for the settings reset. -/
theorem Flagged.rejected (hreq : Meta3dr.request w (checked {} c) = .update)
    (hv : verdict w (choosing w (checked {} c)) ≠ .accepted) :
    SettingsReset w c ↔ Spared w c := by
  have hinst : installs w {} c = false := by
    simpa [hv] using (h.installs_iff hreq).not
  have hspared : Spared w c ↔ RESETSETTINGS ∉ removedPaths w (choosing w (checked {} c)) :=
    ⟨fun hs => hs.request hreq hinst, fun hs => ⟨by simp [hinst], fun _ _ => hs⟩⟩
  obtain ⟨t, ht⟩ := h.resetSettings
  obtain ⟨hcan, hclean, hloader, hholds⟩ := h.rejected_frame hv
  have hrestart : Restarts w {} c (Meta3dr.rejected w c) := restarts_update (by simp [h.canonical.latest]) h.unforced hreq
  have hupdate := h.get_rejected hv (q := ["updates", "UPDATE"]) (by simp) (by simp) (by simp)
  have hfactory := h.get_rejected hv (q := ["updates", "FACTORYRESET"]) (by simp) (by simp) (by simp)
  have hreset := h.get_rejected hv (q := ["updates", "RESETSETTINGS"]) (by simp) (by simp) (by simp)
  have hdir := h.get_rejected hv (q := ["updates"]) (by simp) (by simp) (by simp)
  have hparent : (c.files .p4).get ["updates"] = some .dir := by
    have hmounted : (withLog w c).LogMounted := Machine.logMounted_log _ _ _
    exact hmounted.get_dropLast (q := ["updates", "RESETSETTINGS"])
      (by rw [hmounted.get]; exact fun hn => by simp [withLog, ht] at hn)
  have hforced := (forced_eq w c (Meta3dr.rejected w c)).trans h.unforced
  rw [if_pos ⟨Or.inl rfl, h.update.ne_dir⟩] at hupdate
  rw [h.noFactoryReset, ite_self] at hfactory
  rw [hparent, if_neg (by simp)] at hdir
  simp only [ht, List.cons.injEq, String.reduceEq, and_false, false_and, false_or] at hreset
  generalize Meta3dr.rejected w c = e at *
  have hreq' : Meta3dr.request w e =
      if (e.files .p4).get ["updates", "RESETSETTINGS"] ≠ none then .resetSettings else .none := by
    rw [request_of_flags hclean.mountable (fun n hn => ⟨t, by rw [hreset] at hn; split_ifs at hn; simp_all⟩)
      hfactory (fun n hn => by simp [hupdate] at hn)]
    simp [hupdate]
  rw [hspared]
  constructor
  · rintro ⟨c', hboots, -, -, hlog, -⟩ hmem
    rw [if_pos ⟨hmem, by simp⟩] at hreset
    have hnone : Meta3dr.request w e = .none := by simp [hreq', hreset]
    obtain rfl := hboots.unique (.restarts hrestart
      (.enters (hclean.enters (by simp [hcan.latest]) hforced hnone)))
    rw [Card.files, hlog] at hdir
    simp [fresh, Files.get] at hdir
  · intro hmem
    rw [if_neg fun hgone => hmem hgone.1] at hreset
    have hsome : Meta3dr.request w (checked {} e) = .resetSettings := by
      rw [hclean.checked, hreq', hreset, if_pos (by simp)]
    have hstatus : e.fsckStatus .p4 .ext3 < 4 := by
      obtain ⟨fs, hfs, hkind, hdamage⟩ := hclean
      simp [Card.fsckStatus, hfs, hkind, hdamage]
    obtain ⟨c', hboots, hfrom⟩ := bootsTo_reset hcan hforced hstatus hsome
    rw [hclean.checked] at hfrom
    refine ⟨c', .restarts hrestart hboots, hfrom.canonical, hfrom.rwfs, hfrom.log,
      request_of_fresh w hfrom.log, hfrom.golden.trans (hholds .p1 (by decide)), ?_⟩
    rw [if_neg (by simp [hinst])]
    exact ⟨hfrom.latest.trans (hholds .p2 (by decide)), hfrom.loader.trans hloader⟩

/-- **A settings reset does what it is for exactly when the image of an accepted update does not
reach GOLDEN, and a rejection leaves the request.** -/
theorem Flagged.settingsReset_iff : SettingsReset w c ↔ Spared w c := by
  have hreq := h.request_eq
  split_ifs at hreq with hupdate
  · by_cases hv : verdict w (choosing w (checked {} c)) = .accepted
    · exact h.accepted hreq hv
    · exact h.rejected hreq hv
  · obtain ⟨hreset, hspared⟩ := h.alone hreq
    exact ⟨fun _ => hspared, fun _ => hreset⟩

end Flagged

end Settings

/-! ## Both resets -/

namespace Sample

/-- The sample card with a request for a settings reset. -/
def resetting : Card := card [(["updates"], .dir), file "RESETSETTINGS" ""]

theorem resetting_flagged : Flagged world resetting where
  canonical := card_canonical _
  log := by decide
  unforced := by decide
  resetSettings := ⟨[], by decide⟩
  noFactoryReset := by decide
  update := fun n hn => absurd hn (by
    have hnone : (resetting.files .p4).get ["updates", "UPDATE"] = none := by decide
    simp [hnone])
  failed := fun n hn => absurd hn (by
    have hnone : (resetting.files .p4).get ["updates", "UPDATEFAILED"] = none := by decide
    simp [hnone])

/-- A card with GOLDEN only, and a boot loader image on it. -/
def withLoader (t : Text) : Card :=
  { blank with
    regions := fun e => if e = golden then some
      { fresh .vfat "GOLDEN" with files := tree [(["u-boot.imx"], .file t)],
                                  closed := tree_closed _ } else none }

theorem withLoader_golden (t : Text) : (withLoader t).HasGolden := ⟨golden, rfl, by decide⟩

theorem goldenLoader_withLoader (r : Files) (t : Text) :
    goldenLoader r (withLoader t) = some (t.take (golden.stop - golden.start - 1024)) := by
  have hget : (Meta3dr.withGolden r (withLoader t)).get (mntGolden ++ ["u-boot.imx"]) =
      some (.file t) :=
    (get_mounted (withLoader t) (r.insert mntGolden .dir) [] (m := goldenMount) rfl baseMounts
      ["u-boot.imx"]).trans rfl
  have hlink : ∀ u, (Meta3dr.withGolden r (withLoader t)).get (mntGolden ++ ["u-boot.imx"]) ≠
      some (.link u) := fun u hu => by
    rw [hget] at hu
    cases hu
  have hread : (Meta3dr.withGolden r (withLoader t)).read (mntGolden ++ ["u-boot.imx"]) = some t := by
    rw [Machine.read, Machine.stat_of_get _ hlink, hget]
  have hmount : (withLoader t).mountable .p1 = true := rfl
  rw [goldenLoader, if_pos hmount, hread]
  rfl

end Sample

end Meta3dr
