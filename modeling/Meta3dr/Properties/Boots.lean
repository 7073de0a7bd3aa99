import Meta3dr.Init.Installation
import Meta3dr.Properties.Layout

/-!
# Boots in a row

A boot that restarts the machine is followed by another one, until one enters `mount_and_boot`. In
between LOG is clean: the first boot checks it, and the writes to its files keep it so.

## Main definitions

* `Enters w c c'`: a boot enters `mount_and_boot`
* `BootsTo w c c'`: the boots from a card up to the entry of `mount_and_boot`
* `CleanLog`: LOG needs no repair

## Main results

* `BootsTo.unique`: where the boots lead
* `checked_clean`, `CleanLog.checked`: the check of LOG
-/

namespace Meta3dr

open Shell Storage Program

/-! ## The boots up to `mount_and_boot` -/

variable (w : World)

/-- A boot from a card enters `mount_and_boot` with another one. -/
def Enters (c c' : Card) : Prop :=
  ∃ root s, main.run (step w {}) (powerOn w c) = (.ok root, s) ∧ s.card = c'

/-- Undisturbed boots from a card, up to the entry of `mount_and_boot`. -/
inductive BootsTo : Card → Card → Prop
  | enters {c c' : Card} : Enters w c c' → BootsTo c c'
  | restarts {c d c' : Card} : Restarts w {} c d → BootsTo d c' → BootsTo c c'

section Boots

variable {w} {c c' d : Card}

theorem enters_iff : Enters w c c' ↔
    restarts w {} c = false ∧ c' = After Card.apply c (mainPlan w {} c) := by
  constructor
  · rintro ⟨root, s, hrun, rfl⟩
    cases h : Meta3dr.restarts w {} c with
    | true =>
      have hexit := (main_exits (w := w) h).run
      rw [hrun] at hexit
      cases hexit
    | false =>
      have hret := (main_returns (w := w) h).run
      rw [hrun] at hret
      obtain ⟨-, rfl⟩ := Prod.mk.inj hret
      exact ⟨rfl, rfl⟩
  · rintro ⟨h, rfl⟩
    exact ⟨_, _, (main_returns (w := w) h).run, rfl⟩

/-- The boots from a card lead to one card. -/
theorem BootsTo.unique (h : BootsTo w c c') (h' : BootsTo w c d) : c' = d := by
  induction h with
  | enters he =>
    cases h' with
    | enters he' => exact (enters_iff.mp he).2.trans (enters_iff.mp he').2.symm
    | restarts hr _ =>
      have hfalse := (enters_iff.mp he).1
      rw [(restarts_iff.mp hr).1] at hfalse
      cases hfalse
  | restarts hr _ ih =>
    cases h' with
    | enters he' =>
      have hfalse := (enters_iff.mp he').1
      rw [(restarts_iff.mp hr).1] at hfalse
      cases hfalse
    | restarts hr' hb' =>
      obtain rfl := (restarts_iff.mp hr).2.trans (restarts_iff.mp hr').2.symm
      exact ih hb'

end Boots

/-! ## LOG between the boots -/

/-- LOG holds a file system that needs no repair. -/
def CleanLog (c : Card) : Prop := ∃ fs, c.holds .p4 = some fs ∧ fs.kind = .ext3 ∧ fs.damage = 0

section CleanLog

variable {w} {x : Circumstances} {c d : Card} {v : Write} {ws : List (List Write)}

theorem CleanLog.edit (hc : CleanLog c) {f : Files → Files} (hf : ∀ t, t.Closed → (f t).Closed) :
    CleanLog (c.edit .p4 f hf) := by
  obtain ⟨fs, hfs, hkind, hdamage⟩ := hc
  exact ⟨fs.edit f hf, by rw [c.holds_edit_self, hfs]; rfl, hkind, hdamage⟩

/-- Writes to files of LOG leave it clean. -/
theorem LogWrite.clean (h : LogWrite v) (hc : CleanLog c) : CleanLog (c.apply v) := by
  cases v with
  | del q p =>
    obtain rfl : q = .p4 := h
    exact hc.edit _
  | put q p n =>
    obtain rfl : q = .p4 := h
    exact hc.edit _
  | sync => exact hc
  | _ => exact h.elim

theorem CleanLog.after (h : Each LogWrite ws) (hc : CleanLog c) :
    CleanLog (After Card.apply c ws) := (h.along (fun _ _ hv hd => hv.clean hd) hc).last

theorem CleanLog.mountable (h : CleanLog c) : c.mountable .p4 = true := by
  obtain ⟨fs, hfs, -, hdamage⟩ := h
  simp [Card.mountable, hfs, fs.sound hdamage]

/-- The check changes nothing on a clean LOG. -/
theorem CleanLog.checked (h : CleanLog c) : checked x c = c := by
  obtain ⟨fs, hfs, hkind, hdamage⟩ := h
  rw [checked_of_lt (by simp [Card.fsckStatus, hfs, hkind, hdamage])]
  simp [Card.apply, hfs, hdamage]

theorem cleanLog_of_fresh {label : String} (h : c.holds .p4 = some (fresh .ext3 label)) :
    CleanLog c := ⟨_, h, rfl, rfl⟩

/-- A check that can repair LOG leaves it clean, with its files. -/
theorem checked_clean (h : c.fsckStatus .p4 .ext3 < 4) :
    CleanLog (checked x c) ∧ (checked x c).files .p4 = c.files .p4 := by
  rw [checked_of_lt h]
  unfold Card.fsckStatus at h
  cases hfs : c.holds .p4 with
  | none => simp [hfs] at h
  | some fs =>
    simp only [hfs] at h
    split_ifs at h with hkind
    · by_cases hdamage : 0 < fs.damage
      · have hholds : (c.apply (.fsck .p4 .ext3)).holds .p4 = some { fs with
            damage := 0, mountable := true, sound := fun _ => rfl } := by
          simp [Card.apply, hfs, hkind, hdamage, h, c.holds_write_self _ (c.entry_of_holds hfs)]
        exact ⟨⟨_, hholds, hkind, rfl⟩, by simp [Card.files, hholds, hfs]⟩
      · have hsame : c.apply (.fsck .p4 .ext3) = c := by simp [Card.apply, hfs, hdamage]
        rw [hsame]
        exact ⟨⟨fs, hfs, hkind, Nat.eq_zero_of_not_pos hdamage⟩, rfl⟩
    · omega

/-- The check of LOG leaves the other partitions alone. -/
theorem checked_frame (h : c.fsckStatus .p4 .ext3 < 4) :
    (checked x c).table = c.table ∧ (checked x c).capacity = c.capacity ∧
      (checked x c).loader = c.loader ∧ ∀ p ≠ .p4, (checked x c).holds p = c.holds p := by
  rw [checked_of_lt h]
  refine ⟨Write.KeepsTable.apply (v := .fsck .p4 .ext3) trivial, Card.apply_capacity _ _,
    Write.KeepsLoader.apply (v := .fsck .p4 .ext3) trivial, fun p hp => ?_⟩
  simp only [Card.apply]
  split
  · split_ifs
    · exact c.holds_write_of_ne _ hp
    · rfl
  · rfl

end CleanLog

end Meta3dr
