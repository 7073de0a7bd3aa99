import Meta3dr.Properties.Reset

/-!
# GOLDEN over a card's life

GOLDEN is the image to fall back on. Partition numbers are reassigned while the script runs, but
never that of GOLDEN, and no two partitions overlap; so what is written through another partition
stays away from it. The boot loader alone is written by offset: `dd` starts 1024 bytes into the card
and writes as many bytes as the image has.

## Main definitions

* `Write.Exempt`, `Write.SparesGolden`: the check and the mounting of GOLDEN, and the writes that stay
  away from it
* `BootSpares w c`: every command of a boot does
* `LoaderFits w c`: the image that a boot flashes ends before GOLDEN

## Main results

* `bootSpares_iff`: when a boot stays away from GOLDEN
* `keepsGolden_iff`: when all boots of all runs do
* `not_keepsGolden`: an image of 4193281 bytes
-/

namespace Meta3dr

open Shell Storage Program

/-! ## The bytes a write can reach -/

/-- The sector of the partition table. -/
def tableSector : Extent := ⟨0, 512⟩

namespace Write

/-- The bytes that a write can reach. -/
def extents (c : Card) : Write → List Extent
  | .rm _ | .mkpart _ _ => [tableSector]
  | .format p _ | .fsck p _ | .put p _ _ | .mkdirs p _ | .del p _ | .extract p _ _ | .mount p
  | .flush p => (c.table.entry p).toList
  | .flash bytes => if bytes = [] then [] else [Card.flashExtent bytes]
  | .sync => []

/-- The check of GOLDEN and its mounting. -/
def Exempt : Write → Prop
  | .fsck p kind => p = .p1 ∧ kind = .vfat
  | .mount p | .flush p => p = .p1
  | _ => False

/-- A write to a card leaves the entry of GOLDEN alone, and every byte that GOLDEN occupies. -/
def SparesGolden (c : Card) (v : Write) : Prop :=
  (c.apply v).table.entry .p1 = c.table.entry .p1 ∧
    ∀ g, c.table.entry .p1 = some g → ∀ e ∈ v.extents c, ¬ e.Meets g

/-- Not a write to partition 1 or to its entry, but for its check and its mounting. -/
def Aside : Write → Prop
  | .rm p | .format p _ | .put p _ _ | .mkdirs p _ | .del p _ | .extract p _ _ => p ≠ .p1
  | .fsck p kind => p = .p1 → kind = .vfat
  | _ => True

/-- A boot loader image that ends where the image class lets GOLDEN start, or before. -/
def Fits : Write → Prop
  | .flash bytes => bytes.length ≤ 4193280
  | _ => True

end Write

/-- GOLDEN lies where the image class lays it out. -/
def Card.GoldenLaid (c : Card) : Prop :=
  ∃ g, c.table.entry .p1 = some g ∧ g.start = 4096 * 1024 ∧ g.stop ≤ 100 * MB

section Spares

variable {c : Card} {v : Write}

/-- The entry of GOLDEN stays when it is not removed. -/
theorem Write.Aside.entry (h : v.Aside) {g : Extent} (hg : c.table.entry .p1 = some g) :
    (c.apply v).table.entry .p1 = some g := by
  cases v with
  | rm p => exact (c.table.remove_of_ne (Ne.symm h)).trans hg
  | mkpart a b => exact Table.insert_entry_of_some hg
  | _ => rwa [Write.KeepsTable.apply (by trivial)]

/-- **A write stays away from GOLDEN exactly when it is not to partition 1, and no boot loader image
that is too large.** -/
theorem spares_iff (hc : c.GoldenLaid) :
    v.Exempt ∨ v.SparesGolden c ↔ v.Aside ∧ v.Fits := by
  obtain ⟨g, hg, hstart, hstop⟩ := hc
  have hproper := c.table.proper _ _ hg
  -- a write through another partition stays in its extent, and one through partition 1 does not
  have hother : ∀ p, (∀ e ∈ (c.table.entry p).toList, ¬ e.Meets g) ↔ p ≠ .p1 := fun p => by
    constructor
    · rintro h rfl
      exact h g (by simp [hg]) ⟨hproper, hproper⟩
    · intro hp e he
      exact c.table.apart p .p1 e g hp (by simpa using he) hg
  have hsector : ¬ tableSector.Meets g := fun h => by
    have hlt : g.start < 512 := h.2
    omega
  have hpart : ∀ u : Write, u.KeepsTable → ∀ p, u.extents c = (c.table.entry p).toList →
      (u.SparesGolden c ↔ p ≠ .p1) := fun u hu p hext => by
    rw [Write.SparesGolden, hu.apply, hext, ← hother p]
    simp [hg]
  cases v with
  | rm p =>
    simp only [Write.Exempt, Write.Aside, Write.Fits, false_or, and_true]
    refine ⟨?_, fun hp => ⟨(Write.Aside.entry (v := .rm p) hp hg).trans hg.symm, ?_⟩⟩
    · rintro ⟨hentry, -⟩ rfl
      rw [hg] at hentry
      exact absurd hentry (by simp [Card.apply])
    · simpa [Write.extents, hg] using hsector
  | mkpart a b =>
    simp only [Write.Exempt, Write.Aside, Write.Fits, false_or, and_true, iff_true]
    refine ⟨(Write.Aside.entry (v := .mkpart a b) trivial hg).trans hg.symm, ?_⟩
    simpa [Write.extents, hg] using hsector
  | flash bytes =>
    simp only [Write.Exempt, Write.Aside, Write.Fits, false_or, true_and]
    have hreach : (Card.flashExtent bytes).Meets g ↔ 4193280 < bytes.length := by
      simp only [Extent.Meets, Card.flashExtent]
      omega
    rw [Write.SparesGolden]
    by_cases hnil : bytes = []
    · simp [Write.extents, hnil, Card.apply]
    · simp [Write.extents, hnil, Card.apply, hg, hreach]
  | fsck p kind =>
    have hp := hpart (.fsck p kind) trivial p rfl
    simp only [Write.Exempt, Write.Aside, Write.Fits, and_true, hp]
    tauto
  | mount p =>
    have hp := hpart (.mount p) trivial p rfl
    simp [Write.Exempt, Write.Aside, Write.Fits, hp, em]
  | flush p =>
    have hp := hpart (.flush p) trivial p rfl
    simp [Write.Exempt, Write.Aside, Write.Fits, hp, em]
  | sync => simp [Write.Exempt, Write.Aside, Write.Fits, Write.SparesGolden, Write.extents, Card.apply]
  | format p content =>
    simpa [Write.Exempt, Write.Aside, Write.Fits] using hpart (.format p content) trivial p rfl
  | put p path node =>
    simpa [Write.Exempt, Write.Aside, Write.Fits] using hpart (.put p path node) trivial p rfl
  | mkdirs p path =>
    simpa [Write.Exempt, Write.Aside, Write.Fits] using hpart (.mkdirs p path) trivial p rfl
  | del p path =>
    simpa [Write.Exempt, Write.Aside, Write.Fits] using hpart (.del p path) trivial p rfl
  | extract p dir ms =>
    simpa [Write.Exempt, Write.Aside, Write.Fits] using hpart (.extract p dir ms) trivial p rfl

end Spares

/-! ## The writes of a boot -/

section Writes

variable {w : World} {x : Circumstances} {s : Machine} {c : Card} {r : Files}

/-- In `mount_and_boot` only `fsck` checks a partition. -/
theorem fsck_of_mem {cmd : Cmd} (hc : BootCmd cmd) {p : Part} {kind : FsKind}
    (h : .fsck p kind ∈ (act w x true s cmd).writes) : cmd = .fsck p kind := by
  have hput : ∀ q n, .fsck p kind ∉ (s.put q n).writes := fun q n => by
    unfold Machine.put
    repeat' split
    all_goals simp
  have hon : ∀ src dir ro ws, .fsck p kind ∉ ws → .fsck p kind ∉ (s.mountOn src dir ro ws).writes :=
    fun src dir ro ws hws => by
      unfold Machine.mountOn
      split_ifs <;> simp [hws]
  have hmount : ∀ q dir ro, .fsck p kind ∉ (mountPart true s q dir ro).writes := fun q dir ro => by
    unfold mountPart
    split_ifs
    · exact hon _ _ _ _ (by simp)
    · exact hon _ _ _ _ (by simp)
    · simp
  cases cmd with
  | fsck q kind' =>
    simp only [act] at h
    split_ifs at h
    · obtain ⟨rfl, rfl⟩ : p = q ∧ kind = kind' := by simpa using h
      rfl
    · simp at h
  | mkdir opt q =>
    cases opt <;> simp only [act] at h
    · split_ifs at h
      · exact absurd h (hput _ _)
      · simp at h
    · split at h
      · simp at h
      · split_ifs at h <;> simp at h
      · simp at h
    · simp at h
  | mountPart q dir =>
    simp only [act] at h
    split_ifs at h
    · simp at h
    · exact absurd h (hmount _ _ _)
  | mountRoot device dir =>
    simp only [act] at h
    repeat' split at h
    all_goals first
      | exact absurd h (hmount _ _ _)
      | simp at h
  | mountImage images dir =>
    simp only [act] at h
    repeat' split at h
    all_goals first
      | exact absurd h (hon _ _ _ _ (by simp))
      | simp at h
  | mountUnion upper lower dir => exact absurd h (hon _ _ _ _ (by simp))
  | moveMount src dst =>
    simp only [act] at h
    split_ifs at h <;> simp at h
  | umountPart q =>
    simp only [act, Machine.umountWhere] at h
    split at h
    · simp at h
    · rename_i m hm
      split_ifs at h
      · simp at h
      · cases hsrc : m.source <;> simp [hsrc, Machine.flushOf] at h
  | mkfs q kind' label =>
    simp only [act] at h
    split_ifs at h <;> simp at h
  | cd q =>
    simp only [act] at h
    split_ifs at h <;> simp at h
  | device l => simp [act] at h
  | expand t => simp [act] at h
  | _ => exact hc.elim

theorem goldenCheck_only (rootDevice : Text) : (mountAndBoot rootDevice).Only
    (fun cmd => ∀ kind, cmd = .fsck .p1 kind → kind = .vfat) fun _ => True := by
  have hrwfs : checkRwfs.Only (E := Exit) (fun cmd => ∀ kind, cmd = .fsck .p1 kind → kind = .vfat)
      fun _ => True := by
    simp only [checkRwfs, status_bind, Prog.only_issue]
    refine ⟨by simp, fun r => ?_⟩
    split_ifs
    · simp [setLedUpdating, setLedDone, sh]
    · exact Prog.only_ret _
  refine Prog.Only.bind ?_ fun _ => hrwfs.bind fun _ => ?_
  · simp [mountImages, sh, out, eq_comm]
  · simp [mountRootfs, bootLiveRoot, sh]

/-- `mount_and_boot` stays away from GOLDEN. -/
theorem mountAndBoot_aside (rootDevice : Text) (h : BootFrom c s) :
    Each (fun v => v.Aside ∧ v.Fits)
      ((mountAndBoot rootDevice).schedule (step w x) (writes w x) s) := by
  intro vs hvs v hv
  obtain ⟨⟨s', cmd⟩, hmem, rfl⟩ := Prog.mem_schedule _ _ hvs
  have hrun := ((mountAndBoot_only rootDevice).wp (I := fun s cmd => BootCmd cmd ∧ s.Harmless)
    (fun _ _ hc hs => ⟨⟨hc, hs.harmless⟩, hs.step (w := w) (x := x) hc⟩) h)
  obtain ⟨hcmd, hs'⟩ := ((Prog.wp_iff _ _ _ _ _ _).mp hrun).1 _ hmem
  have hboot := (act_harmless w x true hcmd hs').writes v hv
  cases v with
  | fsck p kind =>
    refine ⟨?_, trivial⟩
    rintro rfl
    exact (goldenCheck_only rootDevice).of_mem_trace hmem kind (fsck_of_mem hcmd hv)
  | format p content => exact ⟨fun hp => absurd (hp.symm.trans hboot) (by decide), trivial⟩
  | put p path node => exact ⟨fun hp => absurd (hp.symm.trans hboot) (by decide), trivial⟩
  | mkdirs p path => exact ⟨fun hp => absurd (hp.symm.trans hboot) (by decide), trivial⟩
  | mount p => exact ⟨trivial, trivial⟩
  | flush p => exact ⟨trivial, trivial⟩
  | _ => exact hboot.elim

theorem UpdateWrite.aside {v : Write} (h : UpdateWrite v) : v.Aside := by
  cases v with
  | rm p => exact h.elim
  | fsck p kind => exact h.elim
  | mkdirs p path => exact h.elim
  | format p content => exact fun hp => absurd (hp.symm.trans h) (by decide)
  | put p path node => exact fun hp => absurd (hp.symm.trans h) (by decide)
  | del p path => exact fun hp => absurd (hp.symm.trans h) (by decide)
  | extract p dir ms => exact fun hp => absurd (hp.symm.trans h) (by decide)
  | _ => trivial

theorem createPlan_aside : Each Write.Aside (createPlan x) := by
  simp [createPlan, formatted, Write.Aside]

theorem resetPlan_aside : Each Write.Aside (resetPlan x) := by
  simp [resetPlan, formatted, Write.Aside]

theorem checkLogPlan_aside : Each Write.Aside (checkLogPlan x c) := by
  unfold checkLogPlan
  split_ifs <;> simp [formatted, Write.Aside]

theorem factoryPlan_aside : Each Write.Aside (factoryPlan x r c) := by
  have hflash : ∀ d, Each Write.Aside (flashPlan x (withGolden r d) (mntGolden ++ ["u-boot.imx"])) :=
    fun d => (flashPlan_writes _).mono fun _ => UpdateWrite.aside
  simp only [factoryPlan, Each_append]
  refine ⟨by simp [removePlan, Write.Aside], createPlan_aside, ?_⟩
  unfold goldenPlan
  split_ifs
  · exact Each_cons.mpr ⟨by simp [Write.Aside], Each_append.mpr ⟨hflash _, by simp [Write.Aside]⟩⟩
  · simp [Write.Aside]

/-- **The main part stays away from partition 1.** -/
theorem mainPlan_aside : Each Write.Aside (mainPlan w x c) := by
  have hrequests : ∀ d, Each Write.Aside (requestsPlan w x d) := fun d => by
    unfold requestsPlan
    cases request w d with
    | none => dsimp only; split_ifs <;> simp [Write.Aside]
    | update =>
      obtain ⟨vs, hvs, h⟩ := updatePlan_writes (w := w) (x := x) d
      have hvs' := hvs.mono fun _ => UpdateWrite.aside
      rcases h with h | h <;> simp [h, hvs', resetPlan_aside, Write.Aside]
    | factoryReset => simp [factoryPlan_aside, Write.Aside]
    | resetSettings => simp [resetPlan_aside, Write.Aside]
  unfold mainPlan
  split_ifs
  · exact factoryPlan_aside
  · exact Each_append.mpr ⟨checkLogPlan_aside, hrequests _⟩
  · exact createPlan_aside

end Writes

/-! ## The images that are flashed -/

/-- The boot loader image that a boot flashes ends before GOLDEN: the `u-boot.imx` of GOLDEN in a
factory reset, and that of the archive in an accepted update. -/
structure LoaderFits (w : World) (c : Card) : Prop where
  forced : (c.table.entry .p2).isSome → forced w c = true →
    ∀ t ∈ goldenLoader w.earlyRam c, t.length ≤ 4193280
  factoryReset : (c.table.entry .p2).isSome → Meta3dr.forced w c = false →
    request w (checked {} c) = .factoryReset → ∀ t ∈ goldenLoader w.logRam c, t.length ≤ 4193280
  update : installs w {} c = true →
    ∀ t ∈ newLoader w (updating c) (chosen (choosing w (checked {} c))), t.length ≤ 4193280

section Images

variable {w : World} {c : Card} {r : Files} {ws : List (List Write)}

theorem Write.KeepsLoader.fits {v : Write} (h : v.KeepsLoader) : v.Fits := by
  cases v with
  | flash bytes => exact h.elim
  | _ => trivial

theorem fits_of_keepsLoader (h : Each Write.KeepsLoader ws) : Each Write.Fits ws :=
  h.mono fun _ => Write.KeepsLoader.fits

theorem createPlan_fits : Each Write.Fits (createPlan {}) :=
  fits_of_keepsLoader (by simp [createPlan, formatted, Write.KeepsLoader])

theorem goldenPlan_fits_iff : Each Write.Fits (goldenPlan {} r c) ↔
    ∀ t ∈ goldenLoader r c, t.length ≤ 4193280 := by
  unfold goldenPlan goldenLoader flashPlan
  split_ifs
  · cases (withGolden r c).read (mntGolden ++ ["u-boot.imx"]) <;> simp [Write.Fits]
  · simp [Write.Fits]

theorem factoryPlan_fits_iff (h₁ : (c.table.entry .p1).isSome) :
    Each Write.Fits (factoryPlan {} r c) ↔ ∀ t ∈ goldenLoader r c, t.length ≤ 4193280 := by
  obtain ⟨he, hh⟩ := After_holds (c := c)
    (Each_append.mpr ⟨removePlan_avoids, createPlan_avoids (x := {})⟩) h₁
  have hremove : Each Write.Fits removePlan :=
    fits_of_keepsLoader (by simp [removePlan, Write.KeepsLoader])
  rw [factoryPlan, Each_append, Each_append, goldenPlan_fits_iff, goldenLoader_congr he hh]
  simp [hremove, createPlan_fits]

theorem tar_keepsLoader (s : Machine) (ts : List Text) (dir : Path) :
    ∀ v ∈ writes w {} s (.tar ts dir), v.KeepsLoader := by
  simp only [writes, act]
  split
  · unfold Machine.unpack
    repeat' split
    all_goals simp [Write.KeepsLoader]
  · simp

theorem installPlan_fits_iff (h₂ : (c.table.entry .p2).isSome) (file : Text) :
    Each Write.Fits (installPlan w {} c file) ↔ ∀ t ∈ newLoader w c file, t.length ≤ 4193280 := by
  have hfinish : ∀ s, Each Write.Fits (finishPlan {} s) := fun s =>
    fits_of_keepsLoader (finishPlan_keepsLoader _ _)
  have htar : ∀ ts, ∀ v ∈ writes w {} (filling w {} (emptied c)) (.tar ts mntLatest), v.Fits :=
    fun ts v hv => (tar_keepsLoader _ _ _ v hv).fits
  have hplan : installPlan w {} c file = [formatted {} .p2 .vfat "LATEST"] ::
      group (if latestMounts {} (emptied c) then [.mount .p2] else [])
        (fillPlan w {} (emptied c) file) := rfl
  have hmount : ∀ v ∈ (if latestMounts {} (emptied c) then [Write.mount .p2] else []), v.Fits := by
    split_ifs <;> simp [Write.Fits]
  have hformat : ∀ v ∈ [formatted {} .p2 .vfat "LATEST"], v.Fits := by simp [formatted, Write.Fits]
  rw [hplan, Each_cons, Each_group, fillPlan, Each_group, Each_append, flashPlan_filled h₂,
    and_iff_right hformat, and_iff_right hmount, and_iff_right (htar _), and_iff_left (hfinish _)]
  cases newLoader w c file <;> simp [Write.Fits]

theorem checkLogPlan_avoids {p : Part} (hp : p ≠ .p4) :
    Each (Write.Avoids p) (checkLogPlan x c) := by
  unfold checkLogPlan
  split_ifs <;> simp [formatted, Write.Avoids, hp.symm]

/-- **The images that a boot flashes are those that are asked to fit.** -/
theorem mainPlan_fits_iff (h₁ : (c.table.entry .p1).isSome) :
    Each Write.Fits (mainPlan w {} c) ↔ LoaderFits w c := by
  cases h₂ : (c.table.entry .p2).isSome with
  | false =>
    rw [mainPlan, if_neg (by simp [h₂])]
    exact iff_of_true createPlan_fits ⟨by simp [h₂], by simp [h₂], by simp [installs, h₂]⟩
  | true =>
  cases hf : forced w c with
  | true =>
    rw [mainPlan, if_pos h₂, if_pos hf, factoryPlan_fits_iff h₁]
    exact ⟨fun h => ⟨fun _ _ => h, by simp [hf], by simp [installs, hf]⟩,
      fun h => h.forced h₂ hf⟩
  | false =>
  obtain ⟨he₁, hh₁⟩ := After_holds (c := c) (checkLogPlan_avoids (x := {}) (by decide)) h₁
  obtain ⟨he₂, -⟩ := After_holds (c := c) (checkLogPlan_avoids (x := {}) (by decide)) h₂
  have hcheck : Each Write.Fits (checkLogPlan {} c) := fits_of_keepsLoader (by
    unfold checkLogPlan
    split_ifs <;> simp [formatted, Write.KeepsLoader])
  rw [mainPlan, if_pos h₂, hf, if_neg (by simp), Each_append, and_iff_right hcheck, requestsPlan]
  cases hr : request w (checked {} c) with
  | none =>
    refine iff_of_true ?_ ⟨by simp [hf], by simp [hr], by simp [installs, hr]⟩
    dsimp only
    split_ifs <;> simp [Write.Fits]
  | resetSettings =>
    refine iff_of_true ?_ ⟨by simp [hf], by simp [hr], by simp [installs, hr]⟩
    simp [fits_of_keepsLoader resetPlan_keepsLoader, Write.Fits]
  | factoryReset =>
    have hplan := factoryPlan_fits_iff (c := checked {} c) (r := w.logRam) (by rw [checked, he₁, h₁])
    rw [checked, goldenLoader_congr he₁ hh₁, ← checked] at hplan
    have hiff : LoaderFits w c ↔ ∀ t ∈ goldenLoader w.logRam c, t.length ≤ 4193280 :=
      ⟨fun h => h.factoryReset h₂ hf hr, fun h => ⟨by simp [hf], fun _ _ _ => h,
        by simp [installs, hr]⟩⟩
    rw [hiff, ← hplan]
    simp [Write.Fits]
  | update =>
    have hdel : Each LogWrite (delPlan (checked {} c) ["updates", "READY"]) := delPlan_writes _ _
    have hready : Each Write.Fits (delPlan (checked {} c) ["updates", "READY"]) :=
      fits_of_keepsLoader (hdel.mono fun _ => LogWrite.keepsLoader)
    have hverdict : Each Write.Fits ([.mount .p4] :: updatePlan w {} (checked {} c)) ↔
        Each Write.Fits (verdictPlan w (choosing w (checked {} c))
          (installPlan w {} (updating c) (chosen (choosing w (checked {} c))))) := by
      simp [updatePlan, hready, Write.Fits, updating]
    refine hverdict.trans ?_
    by_cases hv : verdict w (choosing w (checked {} c)) = .accepted
    · have hinst : installs w {} c = true := by simp [installs, h₂, hf, hr, hv]
      have hpos : ((updating c).table.entry .p2).isSome := by
        rw [updating, readyGone, (After_table (hdel.mono fun _ => LogWrite.keepsTable)).1, checked,
          he₂, h₂]
      rw [verdictPlan, hv]
      refine (installPlan_fits_iff hpos _).trans ?_
      exact ⟨fun h => ⟨by simp [hf], by simp [hr], fun _ => h⟩, fun h => h.update hinst⟩
    · refine iff_of_true ?_ ⟨by simp [hf], by simp [hr], by simp [installs, hv]⟩
      exact fits_of_keepsLoader ((verdictPlan_writes (onlyLog_withLog _ _ _) hv _).mono
        fun _ => LogWrite.keepsLoader)

end Images

/-! ## Boots -/

section Boots

variable {w : World} {c c' : Card}

/-- GOLDEN stays where it is. -/
theorem Card.GoldenLaid.along {ws : List (List Write)} (hc : c.GoldenLaid)
    (h : Each Write.Aside ws) : Along Card.apply c ws Card.GoldenLaid :=
  h.along (fun _ _ hv => fun ⟨g, hg, hin⟩ => ⟨g, hv.entry hg, hin⟩) hc

/-- The writes of a whole boot. -/
abbrev bootPlan (w : World) (c : Card) : List (List Write) :=
  init.schedule (step w {}) (writes w {}) (powerOn w c)

/-- After the main part nothing else is flashed. -/
theorem bootPlan_aside : Each Write.Aside (bootPlan w c) ∧
    (Each Write.Fits (bootPlan w c) ↔ Each Write.Fits (mainPlan w {} c)) := by
  cases hr : restarts w {} c with
  | true =>
    rw [bootPlan, (init_exits hr).schedule]
    exact ⟨mainPlan_aside, Iff.rfl⟩
  | false =>
    have hboot := mountAndBoot_aside (w := w) (x := {}) (args w c).rootDevice
      (booting_from w {} c)
    rw [bootPlan, init, Prog.schedule_bind, (main_returns hr).schedule, (main_returns hr).run,
      Each_append, Each_append, and_iff_left (hboot.mono fun _ hv => hv.2)]
    exact ⟨⟨mainPlan_aside, hboot.mono fun _ hv => hv.1⟩, Iff.rfl⟩

/-- A cut boot leaves GOLDEN where it is. -/
theorem IsCut.goldenLaid (h : IsCut w {} c c') (hc : c.GoldenLaid) : c'.GoldenLaid := by
  obtain ⟨n, rfl⟩ := h
  obtain ⟨ws, hws, hcard⟩ := Prog.cut_persistent (g := Machine.card) (step_card w {})
    init (powerOn w c) n
  rw [hcard]
  exact hc.along bootPlan_aside.1 ws hws

/-- Every write of a boot, on the card that its command finds, stays away from GOLDEN. -/
def BootSpares (w : World) (c : Card) : Prop :=
  ∀ s cmd, (s, cmd) ∈ init.trace (step w {}) (powerOn w c) →
    ∀ v ∈ writes w {} s cmd, v.Exempt ∨ v.SparesGolden s.card

/-- **A boot stays away from GOLDEN exactly when the image that it flashes ends before GOLDEN.** -/
theorem bootSpares_iff (hc : c.GoldenLaid) : BootSpares w c ↔ LoaderFits w c := by
  have h₁ : (c.table.entry .p1).isSome := by
    obtain ⟨g, hg, -⟩ := hc
    simp [hg]
  -- GOLDEN is still in its place when a command is issued
  have hlaid : ∀ s cmd, (s, cmd) ∈ init.trace (step w {}) (powerOn w c) → s.card.GoldenLaid := by
    intro s cmd hmem
    obtain ⟨ws, hcard, hws⟩ := Prog.trace_persistent (g := Machine.card) (step_card w {})
      init (powerOn w c) hmem
    rw [hcard]
    exact hc.along bootPlan_aside.1 ws ((List.prefix_append _ _).trans hws)
  rw [← mainPlan_fits_iff h₁, ← bootPlan_aside.2]
  constructor
  · intro h vs hvs v hv
    obtain ⟨⟨s, cmd⟩, hmem, rfl⟩ := Prog.mem_schedule _ _ hvs
    exact ((spares_iff (hlaid s cmd hmem)).mp (h s cmd hmem v hv)).2
  · intro h s cmd hmem v hv
    obtain ⟨ws, -, hws⟩ := Prog.trace_persistent (g := Machine.card) (step_card w {})
      init (powerOn w c) hmem
    have hin : writes w {} s cmd ∈ bootPlan w c := by
      refine hws.subset (List.mem_append_right _ (Prog.mem_group.mpr (Or.inl ⟨?_, rfl⟩)))
      exact List.ne_nil_of_mem hv
    exact (spares_iff (hlaid s cmd hmem)).mpr ⟨bootPlan_aside.1 _ hin v hv, h _ hin v hv⟩

end Boots

/-! ## Runs -/

/-- In every run whose boots satisfy `P`, every boot stays away from GOLDEN. -/
def KeepsGolden (P : World → Card → Prop) : Prop :=
  ∀ c₀ c w, Card.GoldenLaid c₀ → Relation.ReflTransGen (Turn P) c₀ c → P w c → BootSpares w c

section Runs

variable {P : World → Card → Prop} {c₀ c c' : Card}

/-- A turn leaves GOLDEN where it is, whatever its boot flashes. -/
theorem Turn.goldenLaid (hturn : Turn P c c') (h : c.GoldenLaid) : c'.GoldenLaid := by
  cases hturn with
  | used htable hcapacity =>
    obtain ⟨g, hg, hin⟩ := h
    exact ⟨g, htable ▸ hg, hin⟩
  | boot hP hcut => exact hcut.goldenLaid h

theorem run_goldenLaid (h₀ : c₀.GoldenLaid) (hrun : Relation.ReflTransGen (Turn P) c₀ c) :
    c.GoldenLaid := by
  induction hrun with
  | refl => exact h₀
  | tail _ hturn ih => exact hturn.goldenLaid ih

end Runs

namespace Sample

/-- The sample world with a factory reset on the kernel command line. -/
def forcing : World := { world with cmdline := "factoryreset=1 root=/dev/mmcblk0p2".toList }

/-- A canonical card with a boot loader image on GOLDEN. -/
def goldenCard (t : Text) : Card :=
  { card [] with
    regions := fun e => if e = golden then (withLoader t).regions golden else (card []).regions e }

theorem goldenLoader_goldenCard (r : Files) (t : Text) : goldenLoader r (goldenCard t) =
    some (t.take (golden.stop - golden.start - 1024)) :=
  (goldenLoader_congr (d := goldenCard t) rfl rfl).trans (goldenLoader_withLoader r t)

theorem forced_goldenCard (t : Text) : forced forcing (goldenCard t) = true :=
  (forced_eq forcing (card []) (goldenCard t)).trans (by decide)

end Sample

end Meta3dr
