import Meta3dr.Init.Card

/-!
# The size of the SD image

The image class rounds the size of GOLDEN up to the alignment of partitions, lets `parted` make the
partition, reads its size back from `parted` with `awk`, and burns a file system of this size into
it. The units change on the way: KiB in the class, bytes in the output of `parted`, blocks of 1 KiB
for `mkfs.vfat`, and megabytes in `init`, which makes LATEST behind GOLDEN.

## Main definitions

* `goldenSpaceAligned`, `sdcardSize`: the sizes that `IMAGE_CMD_sdcard` computes, in KiB
* `goldenPartition`, `burnedExtent`: the partition, and the bytes that `boot.img` is burned over
* `goldenBlocks`: the expression of `awk`

## Main results

* `length_toDigits_pred`: one less has as many digits, unless the number is a power of ten
* `image_size`: the sizes agree
-/

namespace Meta3dr.Image

open Shell Storage

/-! ## Sizes -/

/-- `IMAGE_ROOTFS_ALIGNMENT`, in KiB. -/
abbrev imageRootfsAlignment : ℕ := 4096

/-- `GOLDEN_SPACE_ALIGNED`, in KiB. -/
def goldenSpaceAligned (bootSpace : ℕ) : ℕ :=
  let space := bootSpace + imageRootfsAlignment - 1
  space - space % imageRootfsAlignment

/-- `SDCARD_SIZE`, in KiB. -/
def sdcardSize (bootSpace : ℕ) : ℕ := imageRootfsAlignment + goldenSpaceAligned bootSpace + 1

/-- Partition 1 as `parted` makes it. -/
def goldenPartition (bootSpace : ℕ) : Extent :=
  ⟨1024 * imageRootfsAlignment, 1024 * (imageRootfsAlignment + goldenSpaceAligned bootSpace)⟩

/-! ## What `awk` reads -/

/-- The number that `awk` takes a string for: its leading digits. -/
def awkNumber (t : Text) : ℤ := Nat.ofDigitChars 10 (t.takeWhile Char.isDigit) 0

/-- The string for an integral number. -/
def awkString (n : ℤ) : Text := (toString n).toList

def awkSubstr (t : Text) (m n : ℕ) : Text := (t.drop (m - 1)).take n

/-- `substr($4, 1, length($4 - 1)) / 1024`, where `$4` is the given field. -/
def goldenBlocks (field : Text) : ℚ :=
  awkNumber (awkSubstr field 1 (awkString (awkNumber field - 1)).length) / 1024

/-- A size as `parted` prints it with `unit b`. -/
def partedSize (bytes : ℕ) : Text := Nat.toDigits 10 bytes ++ ['B']

/-- The bytes of `boot.img`, which `mkfs.vfat -C` makes with `GOLDEN_BLOCKS` blocks. -/
def bootImgSize (bootSpace : ℕ) : ℕ :=
  let p := goldenPartition bootSpace
  1024 * ⌊goldenBlocks (partedSize (p.stop - p.start))⌋₊

/-- The bytes of the image that `dd` with `seek=1` burns `boot.img` over. -/
def burnedExtent (bootSpace : ℕ) : Extent :=
  let bs := imageRootfsAlignment * 1024
  ⟨1 * bs, 1 * bs + bootImgSize bootSpace⟩

/-! ## Rounding -/

/-- **Rounding up gives the least aligned size that is large enough.** -/
theorem goldenSpaceAligned_isLeast (b : ℕ) :
    IsLeast {m | imageRootfsAlignment ∣ m ∧ b ≤ m} (goldenSpaceAligned b) := by
  simp only [goldenSpaceAligned, imageRootfsAlignment]
  constructor
  · exact ⟨Nat.dvd_sub_mod _, by omega⟩
  · rintro m ⟨hdvd, hle⟩
    omega

/-! ## Digits -/

/-- One less has as many digits, unless the number is a power of ten. -/
theorem length_toDigits_pred {n : ℕ} (hn : 0 < n) (hpow : ∀ k, n ≠ 10 ^ k) :
    (Nat.toDigits 10 (n - 1)).length = (Nat.toDigits 10 n).length := by
  have hiff : ∀ k, 0 < k →
      ((Nat.toDigits 10 (n - 1)).length ≤ k ↔ (Nat.toDigits 10 n).length ≤ k) := fun k hk => by
    rw [Nat.length_toDigits_le_iff (by decide) hk, Nat.length_toDigits_le_iff (by decide) hk]
    have hne := hpow k
    omega
  exact le_antisymm ((hiff _ Nat.length_toDigits_pos).mpr le_rfl)
    ((hiff _ Nat.length_toDigits_pos).mp le_rfl)

/-- No multiple of 4 MiB below 2 TiB is a power of ten. -/
theorem ne_pow_ten {n : ℕ} (hdvd : 2 ^ 22 ∣ n) (hlt : n < 2 ^ 41) (k : ℕ) : n ≠ 10 ^ k := by
  rintro rfl
  have hk : k < 13 := by
    by_contra hge
    have hpow : 10 ^ 13 ≤ 10 ^ k := Nat.pow_le_pow_right (by decide) (by omega)
    omega
  interval_cases k <;> revert hdvd <;> decide

theorem awkNumber_toDigits (n : ℕ) (t : Text) (ht : ∀ c ∈ t.head?, c.isDigit = false) :
    awkNumber (Nat.toDigits 10 n ++ t) = n := by
  have hdigits : ∀ c ∈ Nat.toDigits 10 n, c.isDigit = true := fun c hc =>
    Nat.isDigit_of_mem_toDigits (by decide) (by decide) hc
  have htail : t.takeWhile Char.isDigit = [] := by
    rcases t with _ | ⟨c, t⟩
    · rfl
    · rw [List.takeWhile_cons, ht c rfl]
      rfl
  rw [awkNumber, List.takeWhile_append_of_pos hdigits, htail, List.append_nil,
    Nat.ofDigitChars_ten_toDigits]

/-- **The expression of `awk` gives the size in blocks**, unless the size is a power of ten. -/
theorem goldenBlocks_partedSize {n : ℕ} (hn : 0 < n) (hpow : ∀ k, n ≠ 10 ^ k) :
    goldenBlocks (partedSize n) = n / 1024 := by
  have hfield : awkNumber (partedSize n) = n := awkNumber_toDigits n ['B'] fun c hc => by
    obtain rfl := Option.some.inj hc
    rfl
  have hpred : (n : ℤ) - 1 = ((n - 1 : ℕ) : ℤ) := by omega
  have hstring : (awkString ((n : ℤ) - 1)).length = (Nat.toDigits 10 n).length := by
    rw [hpred, ← length_toDigits_pred hn hpow, awkString]
    congr 1
    exact Nat.toList_repr
  have hsub : awkSubstr (partedSize n) 1 (Nat.toDigits 10 n).length = Nat.toDigits 10 n ++ [] := by
    simp [awkSubstr, partedSize]
  rw [goldenBlocks, hfield, hstring, hsub, awkNumber_toDigits n [] (by simp)]
  simp

/-! ## The image -/

section Image

variable {b : ℕ} (hb : 1 ≤ b) (hsize : 2 * sdcardSize b < 2 ^ 32)
include hb hsize

theorem goldenBlocks_partition :
    goldenBlocks (partedSize (1024 * goldenSpaceAligned b)) = goldenSpaceAligned b := by
  obtain ⟨⟨⟨m, hm⟩, hle⟩, -⟩ := goldenSpaceAligned_isLeast b
  simp only [sdcardSize, imageRootfsAlignment] at hsize hm
  rw [goldenBlocks_partedSize (by omega) fun k => ne_pow_ten ⟨m, by omega⟩ (by omega) k]
  rw [Nat.cast_mul, Nat.cast_ofNat]
  exact mul_div_cancel_left₀ _ (by norm_num)

theorem bootImgSize_eq : bootImgSize b = 1024 * goldenSpaceAligned b := by
  have hp : (goldenPartition b).stop - (goldenPartition b).start = 1024 * goldenSpaceAligned b := by
    simp only [goldenPartition]
    omega
  rw [bootImgSize, hp, goldenBlocks_partition hb hsize, Nat.floor_natCast]

/-- **The sizes of the image agree**: the size of GOLDEN is the least aligned one; `awk` reads it back
from the output of `parted`; `boot.img` covers the partition and ends inside the image; and the
partition ends before LATEST exactly up to 90112 KiB. -/
theorem image_size :
    IsLeast {m | imageRootfsAlignment ∣ m ∧ b ≤ m} (goldenSpaceAligned b) ∧
    goldenBlocks (partedSize (1024 * goldenSpaceAligned b)) = goldenSpaceAligned b ∧
    burnedExtent b = goldenPartition b ∧
    (burnedExtent b).stop ≤ 1024 * sdcardSize b ∧
    ((goldenPartition b).stop ≤ Card.latestExtent.start ↔ b ≤ 90112) := by
  have hburned : burnedExtent b = goldenPartition b := by
    rw [burnedExtent, goldenPartition, bootImgSize_eq hb hsize, Extent.mk.injEq]
    exact ⟨by ring, by ring⟩
  refine ⟨goldenSpaceAligned_isLeast b, goldenBlocks_partition hb hsize, hburned, ?_, ?_⟩
  · simp only [hburned, goldenPartition, sdcardSize]
    omega
  · obtain ⟨⟨hdvd, hle⟩, hleast⟩ := goldenSpaceAligned_isLeast b
    have hmono : b ≤ 90112 → goldenSpaceAligned b ≤ 90112 := fun h => hleast ⟨by decide, h⟩
    simp only [goldenPartition, Card.latestExtent, MB, imageRootfsAlignment] at hdvd ⊢
    omega

end Image

/-- The sizes for the default `BOOT_SPACE`. -/
theorem image_size_default : burnedExtent 90000 = goldenPartition 90000 :=
  (image_size (b := 90000) (by decide) (by decide)).2.2.1

end Meta3dr.Image
