import Meta3dr.Init.Boot

/-!
# A small card

A world and a card on which the script can be run: a card with the canonical layout, clean file
systems, and given files on LOG.

## Main definitions

* `Sample.world`: an initramfs with the four directories, and a toy digest and archive format
* `Sample.card files`: the canonical card with these files on LOG
-/

namespace Meta3dr.Sample

open Shell Storage Program

/-- A tree from a list of entries, which follow their directories. -/
def tree (es : List (Path × Node)) : Files := es.foldl (fun fs e => fs.put e.1 e.2) ∅

theorem tree_closed (es : List (Path × Node)) : (tree es).Closed := by
  have h : ∀ fs : Files, fs.Closed → (es.foldl (fun fs e => fs.put e.1 e.2) fs).Closed := by
    induction es with
    | nil => exact fun _ h => h
    | cons e es ih => exact fun fs h => ih _ (h.put e.1 e.2)
  exact h ∅ Files.closed_empty

/-- The initramfs with the directories that `init` relies on. -/
def initramfs : Initramfs where
  files := tree [(["dev"], .dir), (["mnt"], .dir), (["proc"], .dir), (["sys"], .dir)]
  dirs := by decide
  mntEmpty := by
    intro p hp hne
    by_contra h
    rcases p with _ | ⟨a, _ | ⟨b, p⟩⟩
    · simp at hp
    · obtain ⟨rfl, -⟩ := List.cons_prefix_cons.mp hp
      exact hne rfl
    · rw [Files.get_of_ne_nil _ (by simp)] at h
      have hmem := AList.lookup_isSome.mp (Option.ne_none_iff_isSome.mp h)
      have hkeys : (tree [(["dev"], .dir), (["mnt"], .dir), (["proc"], .dir), (["sys"], .dir)]).keys =
          [["sys"], ["proc"], ["mnt"], ["dev"]] := by decide
      rw [AList.mem_keys, hkeys] at hmem
      simp at hmem

/-- A digest that repeats the text, and archives whose text is the boot loader image. -/
def world : World where
  initramfs := initramfs
  cmdline := "root=/dev/mmcblk0p2".toList
  md5 := fun t => 'd' :: t
  untar := fun t => some [(["zImage"], "kernel".toList), (["u-boot.imx"], t)]
  unsquash := fun _ => ∅
  odd := fun _ => false

def golden : Extent := ⟨4096 * 1024, 96 * MB⟩

def table : Table Part where
  entry := fun
    | .p1 => some golden
    | .p2 => some Card.latestExtent
    | .p3 => some Card.rwfsExtent
    | .p4 => some ⟨300 * MB, 1000 * MB - MB⟩
  proper := by
    rintro (_ | _ | _ | _) e h <;> simp only [Option.some.injEq] at h <;> subst h <;> decide
  apart := by
    rintro (_ | _ | _ | _) (_ | _ | _ | _) e f hne he hf <;>
      simp only [Option.some.injEq, ne_eq, not_true_eq_false] at hne he hf <;>
      subst he hf <;> decide

theorem roomy_thousand : 301 * MB < 1000 * MB := by decide

/-- The canonical card with these entries on LOG. -/
def card (es : List (Path × Node)) : Card where
  table := table
  regions := fun e =>
    if e = ⟨300 * MB, 1000 * MB - MB⟩ then
      some { fresh .ext3 "LOG" with files := tree es, closed := tree_closed es }
    else if e = golden then some (fresh .vfat "GOLDEN")
    else if e = Card.latestExtent then some (fresh .vfat "LATEST")
    else if e = Card.rwfsExtent then some (fresh .ext3 "RWFS")
    else none
  loader := []
  capacity := 1000 * MB
  roomy := roomy_thousand

/-- The directory of the updates, and in it the request for one. -/
def withUpdate (es : List (Path × Node)) : List (Path × Node) :=
  (["updates"], .dir) :: (["updates", "UPDATE"], .file []) :: es

/-- A file in the directory of the updates. -/
def file (name content : String) : Path × Node := (["updates", name], .file content.toList)

theorem card_canonical (es : List (Path × Node)) : (card es).Canonical where
  golden := ⟨golden, rfl, by decide⟩
  latest := rfl
  rwfs := rfl
  log := rfl

end Meta3dr.Sample
