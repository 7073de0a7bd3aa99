import Meta3dr.Init.Rejection

/-!
# What an installation leaves

When no external command fails, an accepted update leaves LATEST with exactly the files of the
archive, and the boot loader area begins with the `u-boot.imx` among them. The other partitions keep
what they hold, GOLDEN only when the image does not reach it.

## Main definitions

* `archive`, `newLoader`: the files of the archive, and the boot loader image among them
* `installed`: the card when LATEST is filled and the boot loader is flashed

## Main results

* `After_installPlan`: an installation up to its end
* `installed_latest`, `installed_loader`, `installed_golden_iff`, `installed_holds`: what it leaves
-/

namespace Shell.Files

/-- No entry is a link. -/
def NoLinks (fs : Files) : Prop := ∀ p t, fs.get p ≠ some (.link t)

theorem noLinks_empty : NoLinks ∅ := fun p t => by
  unfold get
  split_ifs <;> simp

theorem NoLinks.put {fs : Files} (h : fs.NoLinks) (p : Path) {n : Node} (hn : ∀ t, n ≠ .link t) :
    (fs.put p n).NoLinks := fun q t => by
  unfold Files.put
  split_ifs with hput
  · by_cases hq : q = p
    · subst hq
      rw [get_insert_self _ _ (ne_nil_of_put hput.2)]
      simpa using hn t
    · rw [get_insert_ne _ _ hq]
      exact h q t
  · exact h q t

theorem NoLinks.mkdirs {fs : Files} (h : fs.NoLinks) (p : Path) : (fs.mkdirs p).NoLinks := by
  unfold Files.mkdirs
  generalize fs.missingDirs p = ds
  induction ds generalizing fs with
  | nil => exact h
  | cons d ds ih => exact ih (h.put d (by simp))

theorem NoLinks.extract {fs : Files} (h : fs.NoLinks) (ms : List (Path × Text)) :
    (fs.extract ms).NoLinks := by
  unfold Files.extract
  induction ms generalizing fs with
  | nil => exact h
  | cons m ms ih => exact ih ((h.mkdirs _).put _ (by simp))

/-- The content of a regular file. -/
def content (fs : Files) (p : Path) : Option Text :=
  match fs.get p with
  | some (.file t) => some t
  | _ => none

end Shell.Files

namespace Meta3dr

open Shell Storage Program

variable (w : World)

/-- LATEST formatted. -/
def emptied (c : Card) : Card := c.apply (formatted {} .p2 .vfat "LATEST")

/-- The files that `tar` extracts, on a card with LATEST formatted. -/
def archive (c : Card) (file : Text) : List (Path × Text) :=
  ((filling w {} (emptied c)).members w.untar ((filling w {} (emptied c)).words file)).getD []

/-- The bytes of the boot loader image among them. -/
def newLoader (c : Card) (file : Text) : Option Text :=
  (((∅ : Files).extract (archive w c file)).content ["u-boot.imx"]).map (·.take (c.room .p2))

/-- The card when LATEST is filled and the boot loader is flashed. -/
def installed (c : Card) (file : Text) : Card :=
  (newLoader w c file).elim (filled w {} (emptied c) file).card fun t =>
    (filled w {} (emptied c) file).card.apply (.flash t)

section Installed

variable {w} {c : Card} {n : Text} (h₂ : (c.table.entry .p2).isSome)

theorem emptied_table : (emptied c).table = c.table :=
  Write.KeepsTable.apply (v := formatted {} .p2 .vfat "LATEST") trivial

include h₂

theorem holds_emptied : (emptied c).holds .p2 = some (fresh .vfat "LATEST") :=
  Card.holds_write_self _ _ h₂

theorem latestMounts_emptied : latestMounts {} (emptied c) = true := by
  simp [latestMounts, Card.mountable, holds_emptied h₂, fresh]

theorem filling_eq : filling w {} (emptied c) =
    ⟨emptied c, w.logRam.insert mntLatest .dir, latestMount :: logMount :: baseMounts, []⟩ := by
  rw [filling, latestMounts_emptied h₂]
  rfl

/-- `tar` fills LATEST. -/
theorem filled_eq : filled w {} (emptied c) n =
    ⟨(filled w {} (emptied c) n).card, w.logRam.insert mntLatest .dir,
      latestMount :: logMount :: baseMounts, []⟩ ∧
    ((filled w {} (emptied c) n).card = (emptied c).apply (.extract .p2 [] (archive w c n)) ∨
      (filled w {} (emptied c) n).card = emptied c ∧ archive w c n = []) := by
  have hs := filling_eq (w := w) h₂
  have hon : (filling w {} (emptied c)).mountOf mntLatest = some latestMount := by
    rw [hs]
    simp [Machine.mountOf, latestMount]
  have hbelow : (filling w {} (emptied c)).below mntLatest = [] := by
    simp [Machine.below, hon, latestMount]
  have hdir : (filling w {} (emptied c)).stat mntLatest = some .dir := by
    refine Machine.stat_dir _ ?_
    rw [Machine.get, hbelow]
    rfl
  unfold filled archive
  simp only [step, act]
  cases hms : (filling w {} (emptied c)).members w.untar
      ((filling w {} (emptied c)).words n) with
  | none => exact ⟨hs, Or.inr ⟨rfl, rfl⟩⟩
  | some ms =>
    have hunpack : (filling w {} (emptied c)).unpack ms mntLatest =
        (filling w {} (emptied c)).send [.extract .p2 [] ms] := by
      rw [Machine.unpack, if_pos hdir, hon, hbelow]
      rfl
    simp only [id_eq, hunpack, Option.getD_some]
    rw [hs]
    exact ⟨rfl, Or.inl rfl⟩

/-- LATEST has the files of the archive. -/
theorem filled_latest : ∃ fs, (filled w {} (emptied c) n).card.holds .p2 = some fs ∧
    fs.kind = .vfat ∧ fs.label = "LATEST" ∧ fs.files = (∅ : Files).extract (archive w c n) := by
  rcases (filled_eq (w := w) (n := n) h₂).2 with hcard | ⟨hcard, hnil⟩
  · rw [hcard, Card.apply, Card.holds_edit_self, holds_emptied h₂]
    exact ⟨_, rfl, rfl, rfl, by simp [FileSystem.edit, fresh]⟩
  · rw [hcard, hnil, holds_emptied h₂]
    exact ⟨_, rfl, rfl, rfl, rfl⟩

/-- Nothing else has changed. -/
theorem filled_frame : (filled w {} (emptied c) n).card.table = c.table ∧
    (filled w {} (emptied c) n).card.capacity = c.capacity ∧
    (filled w {} (emptied c) n).card.loader = c.loader ∧
    ∀ p ≠ .p2, (filled w {} (emptied c) n).card.holds p = c.holds p := by
  have hloader : (emptied c).loader = c.loader :=
    Write.KeepsLoader.apply (v := formatted {} .p2 .vfat "LATEST") trivial
  have hcap : (emptied c).capacity = c.capacity := Card.apply_capacity _ _
  have hholds : ∀ p ≠ .p2, (emptied c).holds p = c.holds p := fun p hp =>
    c.holds_write_of_ne _ hp
  rcases (filled_eq (w := w) (n := n) h₂).2 with hcard | ⟨hcard, -⟩
  · rw [hcard]
    refine ⟨?_, ?_, ?_, fun p hp => ?_⟩
    · rw [Write.KeepsTable.apply (v := .extract .p2 [] (archive w c n)) trivial, emptied_table]
    · rw [Card.apply_capacity, hcap]
    · rw [Write.KeepsLoader.apply (v := .extract .p2 [] (archive w c n)) trivial, hloader]
    · exact (Card.holds_edit_of_ne _ hp).trans (hholds p hp)
  · rw [hcard]
    exact ⟨emptied_table, hcap, hloader, hholds⟩

/-- The image that is flashed is the `u-boot.imx` of the archive. -/
theorem flashPlan_filled : flashPlan {} (filled w {} (emptied c) n) latestLoader =
    (newLoader w c n).elim [] fun t => [[.flash t]] := by
  obtain ⟨hs, -⟩ := filled_eq (w := w) (n := n) h₂
  obtain ⟨htable, -⟩ := filled_frame (w := w) (n := n) h₂
  obtain ⟨fs, hfs, -, -, hfiles⟩ := filled_latest (w := w) (n := n) h₂
  unfold newLoader
  generalize (filled w {} (emptied c) n).card = d at hs htable hfs
  rw [hs]
  have hget : (⟨d, w.logRam.insert mntLatest .dir, latestMount :: logMount :: baseMounts, []⟩ :
      Machine).get latestLoader = ((∅ : Files).extract (archive w c n)).get ["u-boot.imx"] := by
    have hm := get_mounted d (w.logRam.insert mntLatest .dir) [] (m := latestMount) rfl
      (logMount :: baseMounts) ["u-boot.imx"]
    rw [Card.files, hfs, Option.elim_some, hfiles] at hm
    exact hm
  have hstat := Machine.stat_of_get _ fun t =>
    hget ▸ Files.noLinks_empty.extract (archive w c n) ["u-boot.imx"] t
  have hread : (⟨d, w.logRam.insert mntLatest .dir, latestMount :: logMount :: baseMounts, []⟩ :
      Machine).read latestLoader =
        ((∅ : Files).extract (archive w c n)).content ["u-boot.imx"] := by
    rw [Machine.read, hstat, hget]
    rfl
  have hbytes : ∀ t, (⟨d, w.logRam.insert mntLatest .dir, latestMount :: logMount :: baseMounts,
      []⟩ : Machine).bytes latestLoader t = t.take (c.room .p2) := fun t => by
    change t.take (d.room .p2) = _
    rw [Card.room, htable, Card.room]
  rw [flashPlan, hread]
  cases ((∅ : Files).extract (archive w c n)).content ["u-boot.imx"] with
  | none => rfl
  | some t => exact congrArg (fun u => [[Write.flash u]]) (hbytes t)

/-- **An installation, up to its end.** -/
theorem After_installPlan : After Card.apply c (installPlan w {} c n) =
    After Card.apply (installed w c n) (finishPlan {} ⟨installed w c n,
      w.logRam.insert mntLatest .dir, latestMount :: logMount :: baseMounts, []⟩) := by
  obtain ⟨hs, -⟩ := filled_eq (w := w) (n := n) h₂
  have hflash := flashPlan_filled (w := w) (n := n) h₂
  have hcard : After Card.apply (filled w {} (emptied c) n).card
      (flashPlan {} (filled w {} (emptied c) n) latestLoader) = installed w c n := by
    rw [hflash, installed]
    cases newLoader w c n <;> rfl
  have hwrote : (filled w {} (emptied c) n).wrote
      (flashPlan {} (filled w {} (emptied c) n) latestLoader) = ⟨installed w c n,
        w.logRam.insert mntLatest .dir, latestMount :: logMount :: baseMounts, []⟩ := by
    rw [Machine.wrote, hcard]
    rw [hs]
  have hmount : (if latestMounts {} (emptied c) then [Write.mount .p2] else []).foldl Card.apply
      (emptied c) = emptied c := foldl_mountLatest _ _
  have htar : (writes w {} (filling w {} (emptied c))
      (.tar ((filling w {} (emptied c)).words n) mntLatest)).foldl Card.apply (emptied c) =
      (filled w {} (emptied c) n).card := rfl
  have hplan : installPlan w {} c n = [formatted {} .p2 .vfat "LATEST"] ::
      group (if latestMounts {} (emptied c) then [.mount .p2] else [])
        (fillPlan w {} (emptied c) n) := rfl
  rw [hplan, After_cons, After_group]
  change After Card.apply ((if latestMounts {} (emptied c) then [Write.mount .p2] else []).foldl
    Card.apply (emptied c)) _ = _
  rw [hmount, fillPlan, After_group, htar, After_append, hcard, hwrote]

/-- **The boot loader area begins with the image of the archive**, when it has one. -/
theorem installed_loader : (installed w c n).loader =
    (newLoader w c n).elim c.loader fun t => t ++ c.loader.drop t.length := by
  have hloader := (filled_frame (w := w) (n := n) h₂).2.2.1
  unfold installed
  cases newLoader w c n with
  | none => exact hloader
  | some t =>
    rw [Option.elim_some, Option.elim_some, ← hloader]
    rfl

end Installed

section Frame

variable {w} {c : Card} {n : Text} (h : c.Canonical)
include h

theorem latest_isSome : (c.table.entry .p2).isSome := by simp [h.latest]

theorem length_newLoader {t : Text} (ht : newLoader w c n = some t) :
    1024 + t.length ≤ 100 * MB := by
  have hroom : c.room .p2 = 100 * MB - 1024 := by
    rw [Card.room, h.latest, Option.elim_some, Card.latestExtent]
    simp only [MB]
  obtain ⟨u, -, rfl⟩ := Option.map_eq_some_iff.mp ht
  have hle : (u.take (c.room .p2)).length ≤ c.room .p2 := List.length_take_le _ _
  rw [hroom] at hle ⊢
  simp only [MB] at hle ⊢
  omega

/-- The layout stays, and what the flash cannot reach. -/
theorem installed_frame : (installed w c n).Canonical ∧ ∀ p ≠ .p1,
    (installed w c n).holds p = (filled w {} (emptied c) n).card.holds p := by
  obtain ⟨htable, hcap, -, -⟩ := filled_frame (w := w) (n := n) (latest_isSome h)
  have hcan := h.congr htable hcap
  unfold installed
  cases ht : newLoader w c n with
  | none => exact ⟨hcan, fun _ _ => rfl⟩
  | some t =>
    exact ⟨hcan.congr rfl rfl, fun p hp =>
      (hcan.spares hp (Or.inr (length_newLoader h ht))).holds⟩

/-- **LATEST has exactly the files of the archive.** -/
theorem installed_latest : ∃ fs, (installed w c n).holds .p2 = some fs ∧
    fs.kind = .vfat ∧ fs.label = "LATEST" ∧ fs.files = (∅ : Files).extract (archive w c n) := by
  rw [(installed_frame h).2 .p2 (by decide)]
  exact filled_latest (latest_isSome h)

theorem installed_holds {p : Part} (hp : p = .p3 ∨ p = .p4) :
    (installed w c n).holds p = c.holds p := by
  have hne : p ≠ .p1 ∧ p ≠ .p2 := by rcases hp with rfl | rfl <;> decide
  rw [(installed_frame h).2 p hne.1]
  exact (filled_frame (latest_isSome h)).2.2.2 p hne.2

/-- **GOLDEN stays as it was exactly when the image does not reach it.** -/
theorem installed_golden_iff : (installed w c n).holds .p1 = c.holds .p1 ↔
    ∀ t ∈ newLoader w c n, c.holds .p1 = none ∨ c.Spares .p1 t := by
  obtain ⟨htable, -, -, hholds⟩ := filled_frame (w := w) (n := n) (latest_isSome h)
  have hgold := hholds .p1 (by decide)
  unfold installed
  cases ht : newLoader w c n with
  | none => simp [hgold]
  | some t =>
    simp only [Option.elim_some, Option.mem_def, Option.some.injEq, forall_eq']
    rw [← hgold, Card.holds_flash_iff, Card.Spares, Card.Spares, htable]

end Frame

/-- The end of an installation does not touch the boot loader. -/
theorem finishPlan_keepsLoader (x : Circumstances) (s : Machine) :
    Each Write.KeepsLoader (finishPlan x s) := by
  have hdel := (delPlan_writes s.card ["updates", "UPDATE"]).mono fun _ => LogWrite.keepsLoader
  unfold finishPlan
  split_ifs <;> simp [hdel, resetPlan, formatted, Write.KeepsLoader]

/-- The end of an installation: the settings reset, when it is requested as well. -/
theorem After_finishPlan (e : Card) (r : Files) :
    After Card.apply e (finishPlan {} ⟨e, r, latestMount :: logMount :: baseMounts, []⟩) =
      if (⟨After Card.apply e (delPlan e ["updates", "UPDATE"]), r,
          latestMount :: logMount :: baseMounts, []⟩ : Machine).isThere RESETSETTINGS then
        After Card.apply (After Card.apply e (delPlan e ["updates", "UPDATE"])) (resetPlan {})
      else After Card.apply e (delPlan e ["updates", "UPDATE"]) := by
  unfold finishPlan
  rw [After_append, Machine.wrote]
  dsimp only
  by_cases h : (⟨After Card.apply e (delPlan e ["updates", "UPDATE"]), r,
      latestMount :: logMount :: baseMounts, []⟩ : Machine).isThere RESETSETTINGS = true
  · rw [if_pos h, if_pos h, After_cons, After_append]
    rfl
  · rw [if_neg h, if_neg h]
    rfl

/-- A regular file is a request. -/
theorem isThere_resetSettings {e : Card} (r : Files) {t : Text}
    (hget : (e.files .p4).get ["updates", "RESETSETTINGS"] = some (.file t)) :
    (⟨After Card.apply e (delPlan e ["updates", "UPDATE"]), r,
      latestMount :: logMount :: baseMounts, []⟩ : Machine).isThere RESETSETTINGS = true := by
  have hmounted : (⟨After Card.apply e (delPlan e ["updates", "UPDATE"]), r,
      latestMount :: logMount :: baseMounts, []⟩ : Machine).LogMounted :=
    Machine.logMounted_latest _ _ _
  have hg : (⟨After Card.apply e (delPlan e ["updates", "UPDATE"]), r,
      latestMount :: logMount :: baseMounts, []⟩ : Machine).get RESETSETTINGS = some (.file t) := by
    rw [hmounted.get, get_delPlan e (by simp), if_neg (by simp), hget]
  rw [Machine.isThere, Machine.stat_of_get _ fun t => by simp [hg], hg]
  rfl

end Meta3dr
