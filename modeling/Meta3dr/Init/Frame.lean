import Meta3dr.Init.Card
import Meta3dr.Program.Schedule

/-!
# What writes leave alone

A write works on one partition, on the table, or on the raw card. The other partitions keep what they
hold, with one exception: the boot loader image is written at offset 1024 without regard to the
partitions, and spoils those it reaches.

## Main definitions

* `Write.KeepsTable`, `Write.KeepsLoader`, `Write.Avoids p`: not a write to the table, to the boot
  loader, to partition `p`
* `Card.Spares p bytes`: a boot loader image does not reach partition `p`

## Main results

* `After_table`, `After_loader`, `After_holds`: what writes leave alone
* `holds_flash_iff`: when a partition keeps what it holds
-/

namespace Meta3dr

open Storage Program

namespace Write

/-- Not a write of `parted`. -/
def KeepsTable : Write → Prop
  | .rm _ | .mkpart _ _ => False
  | _ => True

/-- Not a write of `dd`. -/
def KeepsLoader : Write → Prop
  | .flash _ => False
  | _ => True

/-- Not a write to the partition, nor one of `dd`. -/
def Avoids (p : Part) : Write → Prop
  | .rm q | .format q _ | .fsck q _ | .put q _ _ | .mkdirs q _ | .del q _ | .extract q _ _ => q ≠ p
  | .flash _ => False
  | _ => True

variable {c : Card} {v : Write}

theorem KeepsTable.apply (h : v.KeepsTable) : (c.apply v).table = c.table := by
  refine c.apply_table (fun p hp => ?_) fun a b hab => ?_
  · subst hp
    exact h
  · subst hab
    exact h

theorem KeepsLoader.apply (h : v.KeepsLoader) : (c.apply v).loader = c.loader := by
  cases v with
  | flash bytes => exact h.elim
  | fsck p kind =>
    simp only [Card.apply]
    split
    · split_ifs <;> simp
    · rfl
  | _ => simp [Card.apply]

/-- A partition that is there keeps its place and what it holds. -/
theorem Avoids.apply {p : Part} (h : v.Avoids p) (hp : (c.table.entry p).isSome) :
    (c.apply v).table.entry p = c.table.entry p ∧ (c.apply v).holds p = c.holds p := by
  cases v with
  | rm q =>
    have he : (c.apply (.rm q)).table.entry p = c.table.entry p := c.table.remove_of_ne (Ne.symm h)
    exact ⟨he, congrArg (·.bind c.regions) he⟩
  | mkpart a b =>
    obtain ⟨e, he⟩ := Option.isSome_iff_exists.mp hp
    have hm : (c.apply (.mkpart a b)).table.entry p = c.table.entry p :=
      (Table.insert_entry_of_some he).trans he.symm
    exact ⟨hm, congrArg (·.bind c.regions) hm⟩
  | fsck q kind =>
    refine ⟨by rw [KeepsTable.apply (v := .fsck q kind) trivial], ?_⟩
    simp only [Card.apply]
    split
    · split_ifs
      · exact c.holds_write_of_ne _ (Ne.symm h)
      · rfl
    · rfl
  | format q content =>
    exact ⟨by simp [Card.apply], c.holds_write_of_ne _ (Ne.symm h)⟩
  | flash bytes => exact h.elim
  | mount q => exact ⟨rfl, rfl⟩
  | flush q => exact ⟨rfl, rfl⟩
  | sync => exact ⟨rfl, rfl⟩
  | _ => exact ⟨by simp [Card.apply], c.holds_edit_of_ne (Ne.symm h)⟩

end Write

section After

variable {c : Card} {ws : List (List Write)} {p : Part}

theorem After_table (h : Each Write.KeepsTable ws) :
    (After Card.apply c ws).table = c.table ∧
      (After Card.apply c ws).capacity = c.capacity :=
  (h.along (I := fun d : Card => d.table = c.table ∧ d.capacity = c.capacity)
    (fun d v hv hd => ⟨hv.apply.trans hd.1, (d.apply_capacity v).trans hd.2⟩) ⟨rfl, rfl⟩).last

theorem After_loader (h : Each Write.KeepsLoader ws) :
    (After Card.apply c ws).loader = c.loader :=
  (h.along (I := fun d : Card => d.loader = c.loader) (fun _ _ hv hd => hv.apply.trans hd) rfl).last

/-- A partition that is there keeps its place and what it holds, through writes to others. -/
theorem After_holds (h : Each (Write.Avoids p) ws) (hp : (c.table.entry p).isSome) :
    (After Card.apply c ws).table.entry p = c.table.entry p ∧
      (After Card.apply c ws).holds p = c.holds p :=
  (h.along (I := fun d : Card => d.table.entry p = c.table.entry p ∧ d.holds p = c.holds p)
    (fun d v hv hd => by
      obtain ⟨he, hh⟩ := hv.apply (c := d) (by rw [hd.1]; exact hp)
      exact ⟨he.trans hd.1, hh.trans hd.2⟩) ⟨rfl, rfl⟩).last

end After

/-! ## The boot loader image -/

namespace Card

/-- The bytes of a boot loader image do not reach the partition. -/
def Spares (c : Card) (p : Part) (bytes : Shell.Text) : Prop :=
  ∀ e, c.table.entry p = some e → bytes = [] ∨ ¬ e.Meets (flashExtent bytes)

variable {c : Card} {p : Part} {bytes : Shell.Text}

theorem Spares.congr {d : Card} (h : c.Spares p bytes) (he : d.table.entry p = c.table.entry p) :
    d.Spares p bytes := fun e hd => h e (he ▸ hd)

/-- **A partition keeps what it holds exactly when the image does not reach it**, or when it holds
nothing. -/
theorem holds_flash_iff : (c.apply (.flash bytes)).holds p = c.holds p ↔
    c.holds p = none ∨ c.Spares p bytes := by
  cases he : c.table.entry p with
  | none => simp [holds, apply, he]
  | some e =>
    have hflash : (c.apply (.flash bytes)).holds p =
        if bytes ≠ [] ∧ e.Meets (flashExtent bytes) then none else c.holds p := by
      simp [holds, apply, he]
    have hspares : c.Spares p bytes ↔ ¬ (bytes ≠ [] ∧ e.Meets (flashExtent bytes)) := by
      simp only [Spares, he, Option.some.injEq, forall_eq']
      tauto
    rw [hflash, hspares]
    split_ifs with hreach
    · simp [hreach, eq_comm]
    · simp [hreach]

theorem Spares.holds (h : c.Spares p bytes) : (c.apply (.flash bytes)).holds p = c.holds p :=
  holds_flash_iff.mpr (Or.inr h)

/-- An image that ends below 100 MB spares the partitions of `init`. -/
theorem Canonical.spares (h : c.Canonical) (hp : p ≠ .p1)
    (hlen : bytes = [] ∨ 1024 + bytes.length ≤ 100 * MB) : c.Spares p bytes := fun e he => by
  refine hlen.imp_right fun hlen hm => ?_
  have hhome := (h.toPartial.home p hp).resolve_left (by simp [he])
  exact absurd ((home_bounds (hhome.symm.trans he)).1.trans_lt hm.1) (Nat.not_lt.mpr hlen)

end Card

end Meta3dr
