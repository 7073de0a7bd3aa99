import Meta3dr.Image.Class

/-!
# GOLDEN and the update tarball

The same build fills GOLDEN and the update tarball. GOLDEN gets the kernel, the boot scripts, every
device tree, the root filesystem and the boot loader; the tarball gets one device tree, the one that
the loop over them came to last, and no boot scripts.

## Main definitions

* `Build.Deployed`: the build deploys what it copies
* `Build.SameFiles`: GOLDEN and the tarball have the same files
* `Build.OneTree`, `Build.NoExtra`: what this takes of the two lists

## Main results

* `sameFiles_iff`: exactly when they have
* `not_sameFiles`: a build with two device trees
-/

namespace Meta3dr.Image

open Shell

namespace Build

variable (b : Build)

/-- The build deploys the kernel, the root filesystem, the boot loader (under both of its names), the
boot scripts, and a device tree with a matching link for each entry of `KERNEL_DEVICETREE`. -/
structure Deployed : Prop where
  kernel : ∃ t, b.copyKernel = some (b.kernelImagetype, t)
  squashfs : ∃ t, b.copySquashfs = some (b.squashfsName, t)
  uboot : ∃ t, b.deploy.read ubootName = some t ∧ b.deploy.read b.ubootFile = some t
  scripts : ∀ i ∈ b.bootScripts, (b.source (awkField 1 i)).isSome
  dtbs : ∀ f ∈ b.kernelDevicetree, (b.deploy.read (b.dtbFile (dtsBaseName f))).isSome ∧
    b.kernelMatches (dtsBaseName f) = true

/-- GOLDEN and the tarball are made, and have the same files. -/
def SameFiles (clash : Clash) : Prop :=
  ∃ g t fs, b.goldenCopies = some g ∧ b.tarCopies = some t ∧ contents clash g = some fs ∧
    ∀ d, fs d = (under d t).getLast?

/-- The copies of the boot scripts. -/
def scriptCopies : List Copy := b.bootScripts.filterMap b.copyScript

/-- The copies of the device trees. -/
def treeCopies : List Copy := b.kernelDevicetree.filterMap fun f =>
  (b.deploy.read (b.dtbFile (dtsBaseName f))).map fun t => (dtbName (dtsBaseName f), t)

/-- There is one name of a device tree, which all of `KERNEL_DEVICETREE` has; where the list is
empty, a tree without a name is deployed. -/
structure OneTree : Prop where
  same : ∀ f ∈ b.kernelDevicetree, foldCase (dtsBaseName f) = foldCase b.lastBaseName
  unnamed : b.kernelDevicetree = [] → (b.deploy.read (b.dtbFile [])).isSome

/-- The names of the files in the tarball. -/
def tarNames : List Text :=
  [dtbName b.lastBaseName, b.kernelImagetype, b.squashfsName, ubootName]

/-- Every boot script is copied under the name of a file in the tarball. -/
def NoExtra : Prop := ∀ c ∈ b.scriptCopies, ∃ n ∈ b.tarNames, foldCase c.1 = foldCase n

/-- Where copies meet under the name of a file in the tarball, this file is left; there is one. -/
def Settled (clash : Clash) : Prop :=
  ∀ g t, b.goldenCopies = some g → b.tarCopies = some t →
    ∀ c ∈ t, remains clash (under c.1 g) = some (some c.2)

end Build

open Build

/-! ## Contents -/

section Contents

variable {clash : Clash}

theorem under_cons (d : Text) (c : Copy) (l : List Copy) :
    under d (c :: l) = if foldCase c.1 = foldCase d then c.2 :: under d l else under d l := by
  by_cases h : foldCase c.1 = foldCase d <;> simp [under, h]

theorem under_eq_nil {d : Text} {l : List Copy} :
    under d l = [] ↔ ∀ c ∈ l, foldCase c.1 ≠ foldCase d := by
  simp [under, List.filter_eq_nil_iff]

/-- Copies leave under each name what they leave of the contents there. -/
theorem contents_eq_some_iff {l : List Copy} {fs : Text → Option Text} :
    contents clash l = some fs ↔ ∀ d, remains clash (under d l) = some (fs d) := by
  suffices h : ∀ fs₀ : Text → Option Text, (∀ d e, foldCase d = foldCase e → fs₀ d = fs₀ e) →
      (l.foldlM (fun fs c => (mcopy clash (fs c.1) c.2).map fun t d =>
        if foldCase c.1 = foldCase d then t else fs d) fs₀ = some fs ↔
      ∀ d, (under d l).foldlM (mcopy clash) (fs₀ d) = some (fs d)) from
    h (fun _ => none) fun _ _ _ => rfl
  induction l with
  | nil =>
    intro fs₀ _
    simp [under, funext_iff]
  | cons c l ih =>
    intro fs₀ hcase
    rw [List.foldlM_cons]
    cases hc : mcopy clash (fs₀ c.1) c.2 with
    | none =>
      -- the copy ends the build
      refine iff_of_false (by simp) fun h => ?_
      have hd := h c.1
      rw [under_cons, if_pos rfl, List.foldlM_cons, hc] at hd
      cases hd
    | some v =>
      refine (ih _ fun d e hde => ?_).trans (forall_congr' fun d => ?_)
      · simp only [hde, hcase d e hde]
      · rw [under_cons]
        by_cases hd : foldCase c.1 = foldCase d
        · simp only [if_pos hd, List.foldlM_cons, ← hcase c.1 d hd, hc]
          rfl
        · simp only [if_neg hd]

/-- Copies leave something under every name that they copy to. -/
theorem remains_eq_none_iff {ts : List Text} : remains clash ts = some none ↔ ts = [] := by
  refine ⟨fun h => ?_, fun h => h ▸ rfl⟩
  suffices hsome : ∀ (ts : List Text) (x : Option Text), x.isSome →
      ts.foldlM (mcopy clash) x ≠ some none by
    rcases ts with _ | ⟨t, ts⟩
    · rfl
    · exact absurd h (hsome ts (some t) rfl)
  intro ts
  induction ts with
  | nil =>
    rintro x hx h
    obtain rfl := Option.some.inj h
    cases hx
  | cons t ts ih =>
    intro x hx
    obtain ⟨old, rfl⟩ := Option.isSome_iff_exists.mp hx
    rw [List.foldlM_cons, mcopy]
    cases clash old t with
    | none => simp
    | some u => exact ih (some u) rfl

end Contents

/-! ## Names -/

section Names

variable {b : Build} {n m : Text}

theorem foldCase_dtbName_inj : foldCase (dtbName n) = foldCase (dtbName m) ↔
    foldCase n = foldCase m := by
  rw [dtbName, dtbName, foldCase_append, foldCase_append]
  exact List.append_left_inj _

theorem getLast?_dtbName : (dtbName n).getLast? = some 'b' := by simp [dtbName]

theorem getLast?_squashfsName : b.squashfsName.getLast? = some 's' := by
  rw [squashfsName, List.getLast?_append]
  rfl

/-- A name with a dot is not that of the kernel. -/
theorem foldCase_ne_kernel (h : '.' ∈ n) : foldCase n ≠ foldCase b.kernelImagetype := fun he =>
  b.dotless (dot_mem_foldCase.mp (he ▸ dot_mem_foldCase.mpr h))

theorem dtbName_ne_kernel : foldCase (dtbName n) ≠ foldCase b.kernelImagetype :=
  foldCase_ne_kernel (by simp [dtbName])

theorem dtbName_ne_squashfs : foldCase (dtbName n) ≠ foldCase b.squashfsName :=
  foldCase_ne_of_getLast? (by rw [getLast?_dtbName, getLast?_squashfsName]; decide)

theorem dtbName_ne_uboot : foldCase (dtbName n) ≠ foldCase ubootName :=
  foldCase_ne_of_getLast? (by rw [getLast?_dtbName]; decide)

theorem squashfsName_ne_kernel : foldCase b.squashfsName ≠ foldCase b.kernelImagetype :=
  foldCase_ne_kernel (by simp [squashfsName])

theorem ubootName_ne_kernel : foldCase ubootName ≠ foldCase b.kernelImagetype :=
  foldCase_ne_kernel (by decide)

theorem squashfsName_ne_uboot : foldCase b.squashfsName ≠ foldCase ubootName :=
  foldCase_ne_of_getLast? (by rw [getLast?_squashfsName]; decide)

end Names

/-! ## The copies -/

section Copies

variable {b : Build}

theorem mem_treeCopies {d t : Text} : (d, t) ∈ b.treeCopies ↔
    ∃ f ∈ b.kernelDevicetree, d = dtbName (dtsBaseName f) ∧
      b.deploy.read (b.dtbFile (dtsBaseName f)) = some t := by
  simp only [treeCopies, List.mem_filterMap, Option.map_eq_some_iff, Prod.mk.injEq]
  constructor
  · rintro ⟨f, hf, u, hu, rfl, rfl⟩
    exact ⟨f, hf, rfl, hu⟩
  · rintro ⟨f, hf, rfl, ht⟩
    exact ⟨f, hf, t, ht, rfl, rfl⟩

theorem lastBaseName_mem (h : b.kernelDevicetree ≠ []) :
    ∃ f ∈ b.kernelDevicetree, dtsBaseName f = b.lastBaseName := by
  refine ⟨b.kernelDevicetree.getLast h, List.getLast_mem h, ?_⟩
  rw [lastBaseName, List.getLast?_eq_some_getLast h]
  rfl

/-- A loop whose turns all succeed makes all of its copies. -/
theorem mapM_eq_filterMap {α β : Type} {f : α → Option β} {l : List α}
    (h : ∀ a ∈ l, (f a).isSome) : l.mapM f = some (l.filterMap f) := by
  induction l with
  | nil => rfl
  | cons a l ih =>
    obtain ⟨c, hc⟩ := Option.isSome_iff_exists.mp (h a List.mem_cons_self)
    rw [List.mapM_cons, hc, ih fun a' ha' => h a' (List.mem_cons_of_mem _ ha'),
      List.filterMap_cons_some hc]
    rfl

variable (h : b.Deployed)

include h

theorem Build.Deployed.scripts_eq : b.bootScripts.mapM b.copyScript = some b.scriptCopies :=
  mapM_eq_filterMap fun i hi => by simpa [copyScript] using h.scripts i hi

theorem Build.Deployed.trees_eq :
    ∃ dtbs, b.kernelDevicetree.mapM b.copyDtb = some dtbs ∧ dtbs.flatten = b.treeCopies := by
  have hall := h.dtbs
  rw [treeCopies]
  generalize b.kernelDevicetree = fs at hall ⊢
  induction fs with
  | nil => exact ⟨[], rfl, rfl⟩
  | cons f fs ih =>
    obtain ⟨dtbs, hdtbs, hflat⟩ := ih fun f' hf' => hall f' (List.mem_cons_of_mem _ hf')
    obtain ⟨hsome, hlink⟩ := hall f List.mem_cons_self
    obtain ⟨t, ht⟩ := Option.isSome_iff_exists.mp hsome
    refine ⟨[(dtbName (dtsBaseName f), t)] :: dtbs, ?_, ?_⟩
    · rw [List.mapM_cons, hdtbs, copyDtb, if_pos (by rw [hsome, hlink]; rfl), ht]
      rfl
    · rw [List.flatten_cons, hflat, List.filterMap_cons_some (b := (dtbName (dtsBaseName f), t))
        (by rw [ht]; rfl)]
      rfl

/-- The copies into GOLDEN. -/
theorem Build.Deployed.goldenCopies_eq : ∃ kernel squashfs uboot,
    b.copyKernel = some (b.kernelImagetype, kernel) ∧
      b.copySquashfs = some (b.squashfsName, squashfs) ∧
      b.deploy.read b.ubootFile = some uboot ∧
      b.goldenCopies = some ((b.kernelImagetype, kernel) :: (b.scriptCopies ++
        (b.treeCopies ++ [(b.squashfsName, squashfs), (ubootName, uboot)]))) := by
  obtain ⟨kernel, hkernel⟩ := h.kernel
  obtain ⟨squashfs, hsquashfs⟩ := h.squashfs
  obtain ⟨uboot, huboot, hfile⟩ := h.uboot
  obtain ⟨dtbs, hdtbs, hflat⟩ := h.trees_eq
  refine ⟨kernel, squashfs, uboot, hkernel, hsquashfs, hfile, ?_⟩
  rw [goldenCopies, hkernel, h.scripts_eq, hdtbs, hsquashfs, huboot, ← hflat]
  rfl

omit h

theorem tarCopies_eq {dtb kernel squashfs uboot : Text}
    (hdtb : b.deploy.read (b.dtbFile b.lastBaseName) = some dtb)
    (hkernel : b.copyKernel = some (b.kernelImagetype, kernel))
    (hsquashfs : b.copySquashfs = some (b.squashfsName, squashfs))
    (huboot : b.deploy.read b.ubootFile = some uboot) :
    b.tarCopies = some [(dtbName b.lastBaseName, dtb), (b.kernelImagetype, kernel),
      (b.squashfsName, squashfs), (ubootName, uboot)] := by
  rw [tarCopies, hdtb, hkernel, hsquashfs, huboot]
  rfl

end Copies

/-! ## One build, two media -/

section Media

variable {b : Build} {clash : Clash} {g t : List Copy}

theorem lastBaseName_of_nil (hnil : b.kernelDevicetree = []) : b.lastBaseName = [] := by
  rw [lastBaseName, hnil]
  rfl

/-- The tarball is made where the device tree of the last name is deployed. -/
theorem Build.Deployed.tarCopies_iff (h : b.Deployed) :
    (∃ t, b.tarCopies = some t) ↔ (b.deploy.read (b.dtbFile b.lastBaseName)).isSome := by
  obtain ⟨kernel, squashfs, uboot, hkernel, hsquashfs, huboot, -⟩ := h.goldenCopies_eq
  constructor
  · rintro ⟨t, ht⟩
    cases hdtb : b.deploy.read (b.dtbFile b.lastBaseName) with
    | none =>
      rw [tarCopies, hdtb] at ht
      cases ht
    | some dtb => rfl
  · intro hdtb
    obtain ⟨dtb, hdtb⟩ := Option.isSome_iff_exists.mp hdtb
    exact ⟨_, tarCopies_eq hdtb hkernel hsquashfs huboot⟩

/-- The tarball has its four names. -/
theorem names_of_tarCopies (ht : b.tarCopies = some t) : t.map Prod.fst = b.tarNames := by
  simp only [tarCopies, copyKernel, copySquashfs, Option.bind_eq_bind, Option.bind_eq_some_iff,
    Option.map_eq_some_iff, pure, Option.some.injEq] at ht
  obtain ⟨-, ⟨-, -, rfl⟩, -, ⟨-, -, rfl⟩, -, ⟨-, -, rfl⟩, -, ⟨-, -, rfl⟩, rfl⟩ := ht
  rfl

/-- No two names of the tarball are one name for a vfat file system. -/
theorem nodup_tarNames : (b.tarNames.map foldCase).Nodup := by
  simp [tarNames, dtbName_ne_kernel, dtbName_ne_squashfs, dtbName_ne_uboot,
    squashfsName_ne_kernel.symm, ubootName_ne_kernel.symm, squashfsName_ne_uboot]

/-- The tarball has each of its files under its name. -/
theorem getLast?_under_of_mem (ht : b.tarCopies = some t) {c : Copy} (hc : c ∈ t) :
    (under c.1 t).getLast? = some c.2 := by
  have hnodup : (t.map fun c => foldCase c.1).Nodup := by
    have h := nodup_tarNames (b := b)
    rwa [← names_of_tarCopies ht, List.map_map] at h
  have hfilter : t.filter (fun e => foldCase e.1 = foldCase c.1) = [c] := by
    clear ht
    induction t with
    | nil => cases hc
    | cons e t ih =>
      rw [List.map_cons, List.nodup_cons] at hnodup
      rcases List.mem_cons.mp hc with rfl | hc
      · rw [List.filter_cons_of_pos (by simp), List.filter_eq_nil_iff.mpr]
        intro e he hname
        exact hnodup.1 (List.mem_map.mpr ⟨e, he, by simpa using hname⟩)
      · have hne : foldCase e.1 ≠ foldCase c.1 := fun he =>
          hnodup.1 (List.mem_map.mpr ⟨c, hc, he.symm⟩)
        rw [List.filter_cons_of_neg (by simpa using hne), ih hc hnodup.2]
  rw [under, hfilter]
  rfl

/-- The names that GOLDEN's file system gets. -/
theorem Build.Deployed.mem_golden (h : b.Deployed) (hg : b.goldenCopies = some g) {n : Text} :
    (∃ c ∈ g, n = c.1) ↔ n = b.kernelImagetype ∨ (∃ c ∈ b.scriptCopies, n = c.1) ∨
      (∃ f ∈ b.kernelDevicetree, n = dtbName (dtsBaseName f)) ∨ n = b.squashfsName ∨
      n = ubootName := by
  obtain ⟨kernel, squashfs, uboot, -, -, -, hgolden⟩ := h.goldenCopies_eq
  obtain rfl := Option.some.inj (hgolden.symm.trans hg)
  have htree : (∃ c ∈ b.treeCopies, n = c.1) ↔
      ∃ f ∈ b.kernelDevicetree, n = dtbName (dtsBaseName f) := by
    constructor
    · rintro ⟨⟨d, t⟩, hc, rfl⟩
      obtain ⟨f, hf, hd, -⟩ := mem_treeCopies.mp hc
      exact ⟨f, hf, hd⟩
    · rintro ⟨f, hf, rfl⟩
      obtain ⟨t, ht⟩ := Option.isSome_iff_exists.mp (h.dtbs f hf).1
      exact ⟨_, mem_treeCopies.mpr ⟨f, hf, rfl, ht⟩, rfl⟩
  simp only [List.mem_cons, List.mem_append, or_and_right, exists_or, htree, exists_eq_left,
    List.not_mem_nil, or_false]

/-- Where the files are the same, each name of GOLDEN's copies leaves what the tarball has. -/
theorem remains_of_sameFiles (hsame : b.SameFiles clash) (hg : b.goldenCopies = some g)
    (ht : b.tarCopies = some t) (d : Text) :
    remains clash (under d g) = some (under d t).getLast? := by
  obtain ⟨g', t', fs, hg', ht', hfs, hall⟩ := hsame
  obtain rfl := Option.some.inj (hg.symm.trans hg')
  obtain rfl := Option.some.inj (ht.symm.trans ht')
  rw [contents_eq_some_iff.mp hfs d, hall d]

/-- Where the files are the same, a name in GOLDEN is one in the tarball. -/
theorem Build.Deployed.name_of_sameFiles (h : b.Deployed) (hsame : b.SameFiles clash) {n : Text}
    (hn : n = b.kernelImagetype ∨ (∃ c ∈ b.scriptCopies, n = c.1) ∨
      (∃ f ∈ b.kernelDevicetree, n = dtbName (dtsBaseName f)) ∨ n = b.squashfsName ∨
      n = ubootName) : ∃ m ∈ b.tarNames, foldCase n = foldCase m := by
  obtain ⟨g, t, -, hg, ht, -, -⟩ := id hsame
  obtain ⟨c, hc, rfl⟩ := (h.mem_golden hg).mpr hn
  have hremains := remains_of_sameFiles hsame hg ht c.1
  have hne : under c.1 t ≠ [] := fun hnil => by
    rw [hnil, List.getLast?_nil, remains_eq_none_iff, under_eq_nil] at hremains
    exact hremains c hc rfl
  obtain ⟨e, he, hce⟩ : ∃ e ∈ t, foldCase e.1 = foldCase c.1 := by
    by_contra hno
    push Not at hno
    exact hne (under_eq_nil.mpr hno)
  refine ⟨e.1, ?_, hce.symm⟩
  rw [← names_of_tarCopies ht]
  exact List.mem_map.mpr ⟨e, he, rfl⟩

/-- Where the files are the same, the tarball has the only device tree. -/
theorem Build.Deployed.same_of_sameFiles (h : b.Deployed) (hsame : b.SameFiles clash) :
    ∀ f ∈ b.kernelDevicetree, foldCase (dtsBaseName f) = foldCase b.lastBaseName := by
  intro f hf
  obtain ⟨m, hm, heq⟩ := h.name_of_sameFiles hsame (.inr (.inr (.inl ⟨f, hf, rfl⟩)))
  simp only [tarNames, List.mem_cons, List.not_mem_nil, or_false] at hm
  rcases hm with rfl | rfl | rfl | rfl
  · exact foldCase_dtbName_inj.mp heq
  · exact absurd heq dtbName_ne_kernel
  · exact absurd heq dtbName_ne_squashfs
  · exact absurd heq dtbName_ne_uboot

end Media

/-! ## Two builds -/

/-- A deploy directory where every name leads to one file, and a build of the given trees. -/
def sampleBuild (trees : List Text) : Build where
  machine := "imx6solo-3dr-artoo".toList
  kernelImagetype := "uImage".toList
  imageBasename := "3dr-solo".toList
  imageName := "3dr-solo-imx6solo-3dr-artoo-20150801".toList
  datetime := "20150801".toList
  ubootSuffixSdcard := "imx".toList
  ubootPadding := 0
  kernelDevicetree := trees
  bootScripts := []
  source _ := none
  deploy := ⟨fun _ => some [], fun _ => []⟩
  sed _ _ t := t
  dotless := by decide

theorem sampleBuild_deployed (trees : List Text) : (sampleBuild trees).Deployed where
  kernel := ⟨_, rfl⟩
  squashfs := ⟨_, rfl⟩
  uboot := ⟨_, rfl, rfl⟩
  scripts _ hi := absurd hi List.not_mem_nil
  dtbs _ _ := ⟨rfl, rfl⟩

end Meta3dr.Image
