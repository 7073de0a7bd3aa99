import Meta3dr.Image.Size
import Meta3dr.Properties.Reset

/-!
# The boot loader in the image and on the card

The boot loader reaches the card in three ways: burned into the SD image, where `dd` skips
`UBOOT_PADDING` blocks of the binary, and flashed by `init` from an update or from GOLDEN, where it
skips nothing. The image is written in two steps, and the second one puts the file system of GOLDEN
behind the first 4 MiB.

## Main definitions

* `dd`: the copy of `dd conv=notrunc`
* `sdImage`: the SD image
* `SameLoader`: a boot loader reaches the card unchanged in all three ways

## Main results

* `flash_eq_dd`: what `init` flashes
* `prefix_sdImage_iff`: when the image has the boot loader
* `sameLoader_iff`, `not_sameLoader`: exactly when the three ways agree
-/

namespace Meta3dr.Image

open Shell Storage Program

/-! ## `dd` -/

/-- The byte of `/dev/zero`, and of a hole in a sparse file. -/
abbrev zero : Char := '\x00'

/-- `dd if=input of=output bs=bs seek=seek skip=skip conv=notrunc`. -/
def dd (input output : Text) (bs seek skip : ℕ) : Text :=
  output.take (seek * bs) ++ List.replicate (seek * bs - output.length) zero ++
    input.drop (skip * bs) ++ output.drop (seek * bs + (input.drop (skip * bs)).length)

section Dd

variable {input output : Text} {bs seek i : ℕ} (skip : ℕ)

/-- Before the place written the file stays as it was. -/
theorem getElem?_dd_of_lt (hi : i < seek * bs) (hlen : seek * bs ≤ output.length) :
    (dd input output bs seek skip)[i]? = output[i]? := by
  have hzero : seek * bs - output.length = 0 := Nat.sub_eq_zero_of_le hlen
  rw [dd, hzero, List.replicate_zero, List.append_nil, List.append_assoc,
    List.getElem?_append_left (by rw [List.length_take]; omega), List.getElem?_take_of_lt hi]

/-- From there on it has the bytes of the input, as far as they reach. -/
theorem getElem?_dd (input : Text) (i : ℕ) (hlen : seek * bs ≤ output.length) :
    (dd input output bs seek skip)[seek * bs + i]? =
      if skip * bs + i < input.length then input[skip * bs + i]? else output[seek * bs + i]? := by
  have hzero : seek * bs - output.length = 0 := Nat.sub_eq_zero_of_le hlen
  have htake : (output.take (seek * bs)).length = seek * bs := by rw [List.length_take]; omega
  rw [dd, hzero, List.replicate_zero, List.append_nil, List.append_assoc,
    List.getElem?_append_right (by omega), htake, Nat.add_sub_cancel_left]
  split_ifs with h
  · rw [List.getElem?_append_left (by rw [List.length_drop]; omega), List.getElem?_drop]
  · rw [List.getElem?_append_right (by rw [List.length_drop]; omega), List.getElem?_drop,
      List.length_drop]
    congr 1
    omega

theorem length_dd (input : Text) (hlen : seek * bs ≤ output.length) :
    output.length ≤ (dd input output bs seek skip).length := by
  simp only [dd, List.length_append, List.length_take, List.length_replicate, List.length_drop]
  omega

end Dd

/-- **`init` flashes with `dd`**: the boot loader area is the card from offset 1024 on. -/
theorem flash_eq_dd (c : Card) {raw : Text} (hraw : 1024 ≤ raw.length)
    (hloader : c.loader = raw.drop 1024) (bytes : Text) :
    (c.apply (.flash bytes)).loader = (dd bytes raw 512 2 0).drop 1024 := by
  have htake : (raw.take (2 * 512)).length = 1024 := by rw [List.length_take]; omega
  have hzero : 2 * 512 - raw.length = 0 := Nat.sub_eq_zero_of_le hraw
  rw [dd, hzero, List.replicate_zero, List.append_nil, List.append_assoc,
    List.drop_append_of_le_length (by omega), Card.apply]
  simp [hloader]

/-! ## The image -/

/-- The image file before the boot loader is burned: the partition table, and a hole. -/
def blankImage (bootSpace : ℕ) (table : Text) : Text :=
  table ++ List.replicate (1024 * sdcardSize bootSpace - table.length) zero

/-- The SD image, with the boot loader burned, and then GOLDEN. -/
def sdImage (bootSpace ubootPadding : ℕ) (table uboot bootImg : Text) : Text :=
  dd bootImg (dd uboot (blankImage bootSpace table) 512 2 ubootPadding)
    (imageRootfsAlignment * 1024) 1 0

/-- The bytes of the boot loader area in front of GOLDEN. -/
def loaderRoom : ℕ := 1024 * imageRootfsAlignment - 1024

section SdImage

variable {bootSpace ubootPadding i : ℕ} {table uboot bootImg : Text} (htable : table.length = 512)
include htable

theorem length_blankImage (bootSpace : ℕ) :
    1024 * imageRootfsAlignment + 1024 ≤ (blankImage bootSpace table).length := by
  rw [blankImage, List.length_append, List.length_replicate, htable, sdcardSize]
  have hspace : 0 ≤ goldenSpaceAligned bootSpace := Nat.zero_le _
  simp only [imageRootfsAlignment]
  omega

theorem getElem?_blankImage (hi : i < loaderRoom) :
    (blankImage bootSpace table)[1024 + i]? = some zero := by
  have hlen := length_blankImage htable bootSpace
  rw [blankImage, List.length_append, List.length_replicate, htable] at hlen
  rw [blankImage, htable, List.getElem?_append_right (by omega), List.getElem?_replicate,
    if_pos (by simp only [loaderRoom] at hi; omega)]

/-- In front of GOLDEN the image has the boot loader without its padding, and zeros. -/
theorem getElem?_sdImage (hi : i < loaderRoom) :
    (sdImage bootSpace ubootPadding table uboot bootImg)[1024 + i]? =
      if ubootPadding * 512 + i < uboot.length then uboot[ubootPadding * 512 + i]?
      else some zero := by
  have hlen := length_blankImage htable bootSpace
  have hburn : 2 * 512 ≤ (blankImage bootSpace table).length := by omega
  have hmore := length_dd ubootPadding uboot hburn
  have hroom : 1024 + i < 1 * (imageRootfsAlignment * 1024) := by
    simp only [loaderRoom, imageRootfsAlignment] at hi ⊢
    omega
  rw [sdImage, getElem?_dd_of_lt _ hroom (by omega)]
  have hdd := getElem?_dd ubootPadding uboot i hburn
  rw [getElem?_blankImage htable hi] at hdd
  exact hdd

/-- Behind it the image has GOLDEN. -/
theorem getElem?_sdImage_golden (hne : bootImg ≠ []) :
    (sdImage bootSpace ubootPadding table uboot bootImg)[1024 + loaderRoom]? = bootImg[0]? := by
  have hlen := length_blankImage htable bootSpace
  have hburn : 2 * 512 ≤ (blankImage bootSpace table).length := by omega
  have hmore := length_dd ubootPadding uboot hburn
  have hat : 1024 + loaderRoom = 1 * (imageRootfsAlignment * 1024) + 0 := rfl
  rw [sdImage, hat, getElem?_dd _ _ _ (by omega), if_pos]
  · simp
  · simpa using List.length_pos_iff.mpr hne

/-- **The image has the boot loader exactly when it fits in front of GOLDEN and none of it is skipped
as padding**, unless it is all zeros. -/
theorem prefix_sdImage_iff (bootSpace : ℕ) : (∀ bootImg,
      uboot <+: (sdImage bootSpace ubootPadding table uboot bootImg).drop 1024) ↔
    uboot.length ≤ loaderRoom ∧ (ubootPadding = 0 ∨ ∀ b ∈ uboot, b = zero) := by
  have hpre : ∀ bootImg,
      uboot <+: (sdImage bootSpace ubootPadding table uboot bootImg).drop 1024 ↔
        ∀ i, (h : i < uboot.length) →
          (sdImage bootSpace ubootPadding table uboot bootImg)[1024 + i]? = some uboot[i] := by
    intro bootImg
    rw [List.prefix_iff_getElem?]
    simp only [List.getElem?_drop]
  simp only [hpre]
  constructor
  · intro hall
    have hfits : uboot.length ≤ loaderRoom := by
      by_contra hlong
      have hlt : loaderRoom < uboot.length := Nat.lt_of_not_le hlong
      obtain ⟨c, hc⟩ : ∃ c : Char, c ≠ uboot[loaderRoom] := by
        by_cases hx : uboot[loaderRoom] = 'x'
        · exact ⟨'y', by rw [hx]; decide⟩
        · exact ⟨'x', Ne.symm hx⟩
      have hgolden := hall [c] loaderRoom hlt
      rw [getElem?_sdImage_golden htable (by simp)] at hgolden
      exact hc (by simpa using hgolden)
    refine ⟨hfits, or_iff_not_imp_left.mpr fun hpad b hb => ?_⟩
    obtain ⟨i, hi, rfl⟩ := List.getElem_of_mem hb
    -- Each byte is the one that lies the padding behind it, and zero when there is none.
    have hback : ∀ n i, (h : i < uboot.length) → uboot.length - i ≤ n → uboot[i] = zero := by
      intro n
      induction n with
      | zero => intro i h hn; omega
      | succ n ih =>
        intro i h hn
        have hbyte := hall [] i h
        rw [getElem?_sdImage htable (by omega)] at hbyte
        split_ifs at hbyte with hin
        · rw [List.getElem?_eq_getElem hin, Option.some.injEq] at hbyte
          exact hbyte.symm.trans (ih _ hin (by omega))
        · exact (Option.some.inj hbyte).symm
    exact hback _ i hi le_rfl
  · rintro ⟨hfits, hpad⟩ bootImg i hi
    rw [getElem?_sdImage htable (by omega)]
    rcases hpad with rfl | hzeros
    · rw [Nat.zero_mul, Nat.zero_add, if_pos hi, List.getElem?_eq_getElem hi]
    · rw [hzeros _ (List.getElem_mem hi)]
      split_ifs with hin
      · rw [List.getElem?_eq_getElem hin, hzeros _ (List.getElem_mem hin)]
      · rfl

end SdImage

/-! ## Three ways -/

/-- The boot loader begins the area from offset 1024 on in every image of the build, after every
update that brings it, and after every factory reset from a GOLDEN that has it. -/
structure SameLoader (ubootPadding : ℕ) (uboot : Text) : Prop where
  burned : ∀ bootSpace table bootImg, table.length = 512 →
    uboot <+: (sdImage bootSpace ubootPadding table uboot bootImg).drop 1024
  updated : ∀ w c c', installs w {} c = true →
    newLoader w (updating c) (chosen (choosing w (checked {} c))) = some uboot →
    Restarts w {} c c' → uboot <+: c'.loader
  reset : ∀ w r c, c.HasGolden → r = w.earlyRam ∨ r = w.logRam → goldenLoader r c = some uboot →
    ∃ s, factoryReset.run (step w {}) ⟨c, r, baseMounts, []⟩ = (.error .reboot, s) ∧
      uboot <+: s.card.loader

/-- `init` flashes the whole image. -/
theorem loader_of_factoryReset {w : World} {r : Files} {c : Card} {uboot : Text}
    (h : c.HasGolden) (hr : r = w.earlyRam ∨ r = w.logRam) (ht : goldenLoader r c = some uboot) :
    ∃ s, factoryReset.run (step w {}) ⟨c, r, baseMounts, []⟩ = (.error .reboot, s) ∧
      uboot <+: s.card.loader := by
  obtain ⟨hmnt, hgolden⟩ : r.get ["mnt"] = some .dir ∧
      ∀ q, r.get ("mnt" :: "golden" :: q) = none := by
    rcases hr with rfl | rfl
    · exact ⟨earlyRam_mnt w, earlyRam_below w "golden"⟩
    · exact ⟨get_logRam_mnt, get_logRam_golden⟩
  obtain ⟨s, hrun, hcard⟩ := factoryReset_card (w := w) (c := c) hmnt hgolden
  refine ⟨s, hrun, ?_⟩
  rw [hcard, loader_factoryPlan h, ht]
  exact List.prefix_append _ _

/-- **The three ways agree exactly when the boot loader fits in front of GOLDEN and none of it is
skipped as padding**, unless it is all zeros. -/
theorem sameLoader_iff (ubootPadding : ℕ) (uboot : Text) : SameLoader ubootPadding uboot ↔
    uboot.length ≤ loaderRoom ∧ (ubootPadding = 0 ∨ ∀ b ∈ uboot, b = zero) := by
  constructor
  · intro h
    exact (prefix_sdImage_iff (List.length_replicate (a := zero)) 0).mp fun bootImg => h.burned _ _ bootImg List.length_replicate
  · intro h
    exact {
      burned := fun bootSpace table bootImg htable => (prefix_sdImage_iff htable bootSpace).mpr h bootImg
      updated := fun w c c' hinst ht hr => by
        rw [loader_of_installs hinst hr, ht]
        exact List.prefix_append _ _
      reset := fun w r c hg hr ht => loader_of_factoryReset hg hr ht }

/-- A boot loader with a padding of two blocks, which only the image class skips. -/
theorem not_sameLoader : ¬ ∀ ubootPadding uboot, SameLoader ubootPadding uboot := by
  intro hall
  have himage := (prefix_sdImage_iff (List.length_replicate (a := zero)) 90000).mp fun bootImg =>
      (hall 2 (List.replicate 1024 zero ++ ['x'])).burned _ _ bootImg List.length_replicate
  rcases himage.2 with hpad | hzeros
  · cases hpad
  · exact absurd (hzeros 'x' (List.mem_append_right _ List.mem_cons_self)) (by decide)

end Meta3dr.Image
