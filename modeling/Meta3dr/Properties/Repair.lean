import Meta3dr.Properties.Layout

/-!
# The repair of LOG

When LOG cannot be repaired by its check, `checkLog` makes the partition anew and then tries to put
the file `READY` on it. The main part makes the mount point `/mnt/log` only after the check, so the
mount fails, and the rest of the repair works on the initramfs.

## Main definitions

* `Broken w c`: a canonical card but for LOG, which is missing or beyond repair
* `RepairsReady w c`: the boot hands over with a new LOG that has the file `READY`

## Main results

* `Broken.holds_log`: the boot hands over with a new and empty LOG
* `not_repairsReady`: no repaired LOG has the file `READY`
-/

namespace Meta3dr

open Shell Storage Program

/-- The card is canonical but for LOG, which is missing or beyond repair, and no factory reset is
forced. -/
structure Broken (w : World) (c : Card) : Prop where
  golden : c.HasGolden
  latest : c.table.entry .p2 = some Card.latestExtent
  rwfs : c.table.entry .p3 = some Card.rwfsExtent
  log : 4 ≤ c.fsckStatus .p4 .ext3
  unforced : forced w c = false

/-- The boot hands over with the canonical layout and a new LOG with the file `READY`. -/
def RepairsReady (w : World) (c : Card) : Prop :=
  ∃ c', HandsOver w {} c c' ∧ c'.Canonical ∧
    (∃ fs, c'.holds .p4 = some fs ∧ fs.kind = .ext3 ∧ fs.label = "LOG") ∧
    ∃ t, (c'.files .p4).get ["updates", "READY"] = some (.file t)

section Broken

variable {w : World} {c c' : Card} (h : Broken w c)
include h

omit h in
theorem entry_rm_log {p : Part} (hp : p ≠ .p4) :
    ((c.apply (.fsck .p4 .ext3)).apply (.rm .p4)).table.entry p = c.table.entry p := by
  have htable : (c.apply (.fsck .p4 .ext3)).table = c.table :=
    Write.KeepsTable.apply (v := .fsck .p4 .ext3) trivial
  rw [← htable]
  exact Table.remove_of_ne _ hp

/-- The card without its LOG has a part of the layout. -/
theorem Broken.rm_partial : ((c.apply (.fsck .p4 .ext3)).apply (.rm .p4)).Partial := by
  obtain ⟨g, hg, hstop⟩ := h.golden
  refine ⟨⟨g, (entry_rm_log (by decide)).trans hg, hstop⟩, fun p hp => ?_⟩
  cases p with
  | p1 => exact absurd rfl hp
  | p2 => exact Or.inr ((entry_rm_log (by decide)).trans h.latest)
  | p3 => exact Or.inr ((entry_rm_log (by decide)).trans h.rwfs)
  | p4 => exact Or.inl (Table.remove_self _ _)

/-- The check makes the layout canonical, with a new LOG. -/
theorem Broken.checked : (checked {} c).Canonical ∧
    (checked {} c).holds .p4 = some (fresh .ext3 "LOG") := by
  have hplan : Meta3dr.checked {} c = (((c.apply (.fsck .p4 .ext3)).apply (.rm .p4)).apply
      (.mkpart 300 none)).apply (.format .p4 (some (fresh .ext3 "LOG"))) := by
    rw [Meta3dr.checked, checkLogPlan, if_pos h.log]
    rfl
  have hpart := h.rm_partial
  have h₂ := (entry_rm_log (by decide)).trans h.latest
  have h₃ := (entry_rm_log (by decide)).trans h.rwfs
  obtain ⟨hmk, hmkentry⟩ := mkLog hpart (by simp [h₂]) (by simp [h₃])
  have hformat : Write.KeepsTable (.format .p4 (some (fresh .ext3 "LOG"))) := trivial
  rw [hplan]
  constructor
  · refine (hmk.congr hformat.apply (Card.apply_capacity _ _)).canonical ?_ ?_ ?_ <;>
      rw [hformat.apply, hmkentry] <;> simp [h₂, h₃]
  · exact Card.holds_write_self _ _ (by simp [hmkentry])

/-- On the new LOG there is no request. -/
theorem Broken.request : request w (Meta3dr.checked {} c) = .none :=
  request_of_fresh w h.checked.2

/-- **The boot that repairs LOG hands over with the canonical layout and an empty LOG.** -/
theorem Broken.holds_log : (∃ c', HandsOver w {} c c') ∧
    ∀ c', HandsOver w {} c c' → c'.Canonical ∧ c'.holds .p4 = some (fresh .ext3 "LOG") := by
  have hr : restarts w {} c = false := by simp [restarts, h.unforced, h.request]
  have hplan : After Card.apply c (mainPlan w {} c) = Meta3dr.checked {} c := by
    rw [mainPlan, if_pos (by simp [h.latest]), h.unforced, if_neg (by simp), After_append]
    exact After_requestsPlan h.request
  refine ⟨exists_handsOver hr, fun c' hover => ?_⟩
  have honly := hover.onlyRwfs
  rw [hplan] at honly
  exact ⟨honly.canonical h.checked.1, honly.log.trans h.checked.2⟩

theorem Broken.no_ready (hover : HandsOver w {} c c') :
    (c'.files .p4).get ["updates", "READY"] = none := by
  simp [Card.files, (h.holds_log.2 c' hover).2, fresh, Files.get]

/-- **No repaired LOG has the file `READY`.** -/
theorem not_repairsReady : ¬ RepairsReady w c := by
  rintro ⟨c', hover, -, -, t, ht⟩
  rw [h.no_ready hover] at ht
  cases ht

end Broken

/-- The sample card without its LOG. -/
def Sample.logless : Card := (Sample.card []).apply (.rm .p4)

theorem Sample.logless_broken : Broken Sample.world Sample.logless where
  golden := ⟨Sample.golden, rfl, by decide⟩
  latest := rfl
  rwfs := rfl
  log := by decide
  unforced := by decide

theorem not_repairsReady_logless : ¬ RepairsReady Sample.world Sample.logless :=
  not_repairsReady Sample.logless_broken

/-- A missing LOG is repaired without the file `READY`. -/
theorem exists_not_repairsReady : ¬ ∀ w c, Broken w c → RepairsReady w c := by
  intro hall
  obtain ⟨c', hover, -, -, t, ht⟩ := hall _ _ Sample.logless_broken
  rw [Sample.logless_broken.no_ready hover] at ht
  cases ht

end Meta3dr
