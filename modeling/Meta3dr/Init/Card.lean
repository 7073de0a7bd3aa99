import Meta3dr.Shell.Files
import Meta3dr.Storage.Table

/-!
# The SD card

The card has a partition table with the four primary numbers, the file systems its extents hold,
and the boot loader bytes from offset 1024 on. The commands of `init` change it through writes:
`parted` edits the table, `mkfs` and `fsck` work on one partition, files are written through a
mounted partition, and `dd` writes the raw card.

## Main definitions

* `Part`, `FileSystem`, `Card`: partition numbers, file systems and cards
* `Write`, `Card.apply`: the writes of the script, and what they do to the card
* `Card.holds`, `Card.files`, `Card.fsckStatus`: what a partition holds, its files, and the exit
  status of a check
* `Card.Canonical`, `Card.Partial`: the layout with GOLDEN, LATEST, RWFS and LOG, and its parts

## Main results

* `Card.apply_table`: only `parted` changes the table
* `Card.holds_write_of_ne`: a write to one partition leaves the others alone
* `Card.Partial.rm`, `Card.Partial.mkpart`: partitions removed, and made in their places
-/

namespace Meta3dr

open Shell Storage

/-- The primary partitions `/dev/mmcblk0p1` to `/dev/mmcblk0p4`. -/
inductive Part
  | p1 | p2 | p3 | p4
  deriving DecidableEq

instance : Fintype Part := ⟨{.p1, .p2, .p3, .p4}, fun p => by cases p <;> decide⟩

/-- The numbers in the order in which `parted` hands them out. -/
def Part.numbers : List Part := [.p1, .p2, .p3, .p4]

/-- The megabyte of `parted`'s unit `MB`. -/
abbrev MB : ℕ := 1000000

inductive FsKind
  | vfat | ext3
  deriving DecidableEq

/-- A file system on a partition. `damage` is the exit status with which the next `fsck -y` of
its kind ends, and `files` is what that check leaves. A clean file system can be mounted. -/
structure FileSystem where
  kind : FsKind
  label : String
  files : Files := ∅
  closed : files.Closed := by exact Files.closed_empty
  damage : ℕ := 0
  mountable : Bool := true
  sound : damage = 0 → mountable = true := by simp

/-- Change the files by an operation on trees. -/
def FileSystem.edit (fs : FileSystem) (f : Files → Files) (hf : ∀ t, t.Closed → (f t).Closed) :
    FileSystem :=
  { fs with files := f fs.files, closed := hf _ fs.closed }

/-- The card: the partition table, what the extents hold, the bytes from offset 1024 on, and its
size in bytes, which leaves room for a LOG partition. -/
structure Card where
  table : Table Part
  regions : Regions FileSystem
  loader : Text
  capacity : ℕ
  roomy : 301 * MB < capacity

/-- The writes of the script to the card. A `format` leaves the given content, `mkpart` takes its
bounds in MB with `none` for `-1`, and `sync`, `mount` and `flush` change no content. -/
inductive Write
  | rm (p : Part)
  | mkpart (start : ℕ) (stop : Option ℕ)
  | format (p : Part) (content : Option FileSystem)
  | fsck (p : Part) (kind : FsKind)
  | put (p : Part) (path : Path) (node : Node)
  | mkdirs (p : Part) (path : Path)
  | del (p : Part) (path : Path)
  | extract (p : Part) (dir : Path) (members : List (Path × Text))
  | flash (bytes : Text)
  | mount (p : Part)
  | flush (p : Part)
  | sync

namespace Card

/-- The extent `mkpart` is asked for; `-1` counts one MB from the end of the card. -/
def extent (c : Card) (start : ℕ) (stop : Option ℕ) : Extent :=
  ⟨start * MB, stop.elim (c.capacity - MB) (· * MB)⟩

/-- The file system on a partition. -/
def holds (c : Card) (p : Part) : Option FileSystem := (c.table.entry p).bind c.regions

/-- The files on a partition. -/
def files (c : Card) (p : Part) : Files := (c.holds p).elim ∅ FileSystem.files

/-- The exit status of `fsck -y` on a partition; 8 when there is nothing of this kind to check. -/
def fsckStatus (c : Card) (p : Part) (kind : FsKind) : ℕ :=
  match c.holds p with
  | some fs => if fs.kind = kind then fs.damage else 8
  | none => 8

/-- The partition can be mounted. -/
def mountable (c : Card) (p : Part) : Bool := (c.holds p).any FileSystem.mountable

/-- The partition holds a file system of this kind that can be mounted. -/
def usable (c : Card) (p : Part) (kind : FsKind) : Bool :=
  (c.holds p).any fun fs => fs.kind == kind && fs.mountable

/-- Overwrite a partition; nothing happens to a missing one. -/
def write (c : Card) (p : Part) (content : Option FileSystem) : Card :=
  match c.table.entry p with
  | some e => { c with regions := c.regions.write e content }
  | none => c

/-- Change the files on a partition; nothing happens where there is no file system. -/
def edit (c : Card) (p : Part) (f : Files → Files) (hf : ∀ t, t.Closed → (f t).Closed) : Card :=
  match c.holds p with
  | some fs => c.write p (some (fs.edit f hf))
  | none => c

/-- The bytes a file on a partition can have, at most: the first sectors hold no file. -/
def room (c : Card) (p : Part) : ℕ := (c.table.entry p).elim 0 fun e => e.stop - e.start - 1024

/-- The bytes that `dd` with `bs=512 seek=2` writes. -/
def flashExtent (bytes : Text) : Extent := ⟨1024, 1024 + bytes.length⟩

/-- What a write does to the card. A check repairs what it can, and leaves a clean file system
alone; raw bytes spoil every extent they reach. -/
def apply (c : Card) : Write → Card
  | .rm p => { c with table := c.table.remove p }
  | .mkpart start stop => { c with table := c.table.insert Part.numbers (c.extent start stop) }
  | .format p content => c.write p content
  | .fsck p kind =>
    match c.holds p with
    | some fs =>
      if fs.kind = kind ∧ 0 < fs.damage ∧ fs.damage < 4 then
        c.write p (some { fs with damage := 0, mountable := true, sound := fun _ => rfl })
      else c
    | none => c
  | .put p path node => c.edit p (·.put path node) fun _ h => h.put path node
  | .mkdirs p path => c.edit p (·.mkdirs path) fun _ h => h.mkdirs path
  | .del p path => c.edit p (·.del path) fun _ h => h.del path
  | .extract p dir members =>
    c.edit p (·.extract (members.map fun m => (dir ++ m.1, m.2))) fun _ h => h.extract _
  | .flash bytes =>
    { c with
      loader := bytes ++ c.loader.drop bytes.length
      regions := fun e => if bytes ≠ [] ∧ e.Meets (flashExtent bytes) then none else c.regions e }
  | .mount _ | .flush _ | .sync => c

/-- The extents of the canonical layout. -/
def latestExtent : Extent := ⟨100 * MB, 200 * MB⟩
def rwfsExtent : Extent := ⟨200 * MB, 300 * MB⟩
def logExtent (c : Card) : Extent := ⟨300 * MB, c.capacity - MB⟩

/-- The extent of a partition in the canonical layout; GOLDEN has none of its own. -/
def home (c : Card) : Part → Option Extent
  | .p1 => none
  | .p2 => some latestExtent
  | .p3 => some rwfsExtent
  | .p4 => some c.logExtent

/-- GOLDEN lies on partition 1 below 100 MB. -/
def HasGolden (c : Card) : Prop := ∃ e, c.table.entry .p1 = some e ∧ e.stop ≤ 100 * MB

/-- The canonical layout: GOLDEN, LATEST at 100-200 MB, RWFS at 200-300 MB, and LOG from 300 MB to
the end. -/
structure Canonical (c : Card) : Prop where
  golden : c.HasGolden
  latest : c.table.entry .p2 = some latestExtent
  rwfs : c.table.entry .p3 = some rwfsExtent
  log : c.table.entry .p4 = some c.logExtent

/-- Only GOLDEN is there. -/
def GoldenOnly (c : Card) : Prop :=
  c.HasGolden ∧ c.table.entry .p2 = none ∧ c.table.entry .p3 = none ∧ c.table.entry .p4 = none

/-- A part of the canonical layout: GOLDEN, and some of the other partitions in their places. -/
structure Partial (c : Card) : Prop where
  golden : c.HasGolden
  home : ∀ p ≠ .p1, c.table.entry p = none ∨ c.table.entry p = c.home p

theorem Canonical.toPartial {c : Card} (h : c.Canonical) : c.Partial where
  golden := h.golden
  home p hp := by
    cases p with
    | p1 => exact absurd rfl hp
    | p2 => exact Or.inr h.latest
    | p3 => exact Or.inr h.rwfs
    | p4 => exact Or.inr h.log

theorem GoldenOnly.toPartial {c : Card} (h : c.GoldenOnly) : c.Partial where
  golden := h.1
  home p hp := by
    cases p with
    | p1 => exact absurd rfl hp
    | p2 => exact Or.inl h.2.1
    | p3 => exact Or.inl h.2.2.1
    | p4 => exact Or.inl h.2.2.2

/-- A part of the canonical layout with all partitions is the canonical layout. -/
theorem Partial.canonical {c : Card} (h : c.Partial) (h₂ : (c.table.entry .p2).isSome)
    (h₃ : (c.table.entry .p3).isSome) (h₄ : (c.table.entry .p4).isSome) : c.Canonical where
  golden := h.golden
  latest := (h.home .p2 (by decide)).resolve_left (Option.isSome_iff_ne_none.mp h₂)
  rwfs := (h.home .p3 (by decide)).resolve_left (Option.isSome_iff_ne_none.mp h₃)
  log := (h.home .p4 (by decide)).resolve_left (Option.isSome_iff_ne_none.mp h₄)

/-- The layout is a property of the table and of the size of the card. -/
theorem Canonical.congr {c d : Card} (h : c.Canonical) (ht : d.table = c.table)
    (hc : d.capacity = c.capacity) : d.Canonical where
  golden := by
    unfold HasGolden
    rw [ht]
    exact h.golden
  latest := by rw [ht, h.latest]
  rwfs := by rw [ht, h.rwfs]
  log := by rw [ht, h.log, logExtent, logExtent, hc]

/-! ## What a write leaves alone -/

variable (c : Card)

@[simp] theorem write_table (p : Part) (content : Option FileSystem) :
    (c.write p content).table = c.table := by
  unfold write; split <;> rfl

@[simp] theorem write_capacity (p : Part) (content : Option FileSystem) :
    (c.write p content).capacity = c.capacity := by
  unfold write; split <;> rfl

@[simp] theorem write_loader (p : Part) (content : Option FileSystem) :
    (c.write p content).loader = c.loader := by
  unfold write; split <;> rfl

section Edit

variable (p : Part) (f : Files → Files) (hf : ∀ t, t.Closed → (f t).Closed)

@[simp] theorem edit_table : (c.edit p f hf).table = c.table := by
  unfold edit; split <;> simp

@[simp] theorem edit_capacity : (c.edit p f hf).capacity = c.capacity := by
  unfold edit; split <;> simp

@[simp] theorem edit_loader : (c.edit p f hf).loader = c.loader := by
  unfold edit; split <;> simp

end Edit

/-- Only `parted` changes the table. -/
theorem apply_table {w : Write} (hrm : ∀ p, w ≠ .rm p) (hmk : ∀ a b, w ≠ .mkpart a b) :
    (c.apply w).table = c.table := by
  cases w with
  | rm p => exact absurd rfl (hrm p)
  | mkpart a b => exact absurd rfl (hmk a b)
  | fsck p kind =>
    simp only [apply]
    split
    · split_ifs <;> simp
    · rfl
  | _ => simp [apply]

@[simp] theorem apply_capacity (w : Write) : (c.apply w).capacity = c.capacity := by
  cases w with
  | fsck p kind =>
    simp only [apply]
    split
    · split_ifs <;> simp
    · rfl
  | _ => simp [apply]

theorem entry_of_holds {p : Part} {fs : FileSystem} (h : c.holds p = some fs) :
    (c.table.entry p).isSome := by
  unfold holds at h
  cases he : c.table.entry p with
  | none => simp [he] at h
  | some e => rfl

/-- What a partition holds after it is overwritten. -/
theorem holds_write_self {p : Part} (content : Option FileSystem)
    (h : (c.table.entry p).isSome) : (c.write p content).holds p = content := by
  obtain ⟨e, he⟩ := Option.isSome_iff_exists.mp h
  simp [holds, write, he]

/-- A write to one partition leaves what the others hold. -/
theorem holds_write_of_ne {p q : Part} (content : Option FileSystem) (h : q ≠ p) :
    (c.write p content).holds q = c.holds q := by
  unfold holds
  rw [write_table]
  cases hq : c.table.entry q with
  | none => rfl
  | some f =>
    unfold write
    cases hp : c.table.entry p with
    | none => rfl
    | some e =>
      have hfe : f ≠ e := fun he => h (c.table.entry_injective hq (he ▸ hp))
      exact c.regions.write_of_not_meets content (c.table.apart q p f e h hq hp) hfe

section Edit

variable {p q : Part} {f : Files → Files} {hf : ∀ t, t.Closed → (f t).Closed}

/-- An edit changes the files of the file system that is there. -/
theorem holds_edit_self : (c.edit p f hf).holds p = (c.holds p).map fun fs => fs.edit f hf := by
  unfold edit
  cases h : c.holds p with
  | none => exact h
  | some fs => exact c.holds_write_self _ (c.entry_of_holds h)

theorem holds_edit_of_ne (h : q ≠ p) : (c.edit p f hf).holds q = c.holds q := by
  unfold edit
  split
  · exact c.holds_write_of_ne _ h
  · rfl

theorem files_edit_self (h : (c.holds p).isSome) : (c.edit p f hf).files p = f (c.files p) := by
  obtain ⟨fs, hfs⟩ := Option.isSome_iff_exists.mp h
  simp [files, holds_edit_self, hfs, FileSystem.edit]

theorem files_edit_of_ne (h : q ≠ p) : (c.edit p f hf).files q = c.files q := by
  simp [files, holds_edit_of_ne c h]

end Edit

/-- After a check that ends with a status below 4 the partition can be mounted. -/
theorem usable_apply_fsck {p : Part} {kind : FsKind} (h : c.fsckStatus p kind < 4) :
    (c.apply (.fsck p kind)).usable p kind = true := by
  unfold fsckStatus at h
  cases hc : c.holds p with
  | none => simp [hc] at h
  | some fs =>
    simp only [hc] at h
    split_ifs at h with hk
    · by_cases hd : 0 < fs.damage
      · simp [usable, apply, hc, hk, hd, h, holds_write_self c _ (entry_of_holds c hc)]
      · have hm := fs.sound (Nat.eq_zero_of_not_pos hd)
        simp [usable, apply, hc, hd, hk, hm]
    · omega

theorem mountable_of_usable {p : Part} {kind : FsKind} (h : c.usable p kind = true) :
    c.mountable p = true := by
  obtain ⟨fs, hfs, hm⟩ := (Option.any_eq_true _ _).mp h
  exact (Option.any_eq_true _ _).mpr ⟨fs, hfs, (Bool.and_eq_true _ _ ▸ hm).2⟩

theorem holds_of_get {p : Part} {q : Path} {n : Node} (hq : q ≠ []) (h : (c.files p).get q = some n) :
    (c.holds p).isSome := by
  cases hc : c.holds p with
  | none => simp [files, hc, Files.get, hq] at h
  | some fs => rfl

/-! ## The layout under `parted` -/

section Layout

variable {c}

theorem home_congr {c' : Card} (hc : c'.capacity = c.capacity) (p : Part) :
    c'.home p = c.home p := by
  cases p <;> simp [home, logExtent, hc]

theorem extent_latest : c.extent 100 (some 200) = latestExtent := by
  rw [extent, latestExtent, Option.elim_some]

theorem extent_rwfs : c.extent 200 (some 300) = rwfsExtent := by
  rw [extent, rwfsExtent, Option.elim_some]

theorem extent_log : c.extent 300 none = c.logExtent := by
  rw [extent, logExtent, Option.elim_none]

/-- The homes of two partitions lie apart, and after GOLDEN. -/
theorem home_bounds {p : Part} {e : Extent} (h : c.home p = some e) :
    100 * MB ≤ e.start ∧ e.start < e.stop := by
  have hr := c.roomy
  cases p <;> simp only [home, Option.some.injEq, reduceCtorEq] at h <;> subst h <;>
    simp only [latestExtent, rwfsExtent, logExtent, MB] at hr ⊢ <;> omega

theorem home_apart {p q : Part} {e f : Extent} (hpq : p ≠ q) (hp : c.home p = some e)
    (hq : c.home q = some f) : ¬ e.Meets f := by
  cases p <;> cases q <;>
    simp only [home, Option.some.injEq, reduceCtorEq, ne_eq, not_true_eq_false] at hp hq hpq <;>
    subst hp hq <;> simp only [Extent.Meets, latestExtent, rwfsExtent, logExtent, MB] <;> omega

/-- `parted` numbers a missing partition next when the earlier numbers are taken. -/
theorem firstFree_of_before {p : Part}
    (hbefore : ∀ q ∈ Part.numbers.takeWhile (· ≠ p), (c.table.entry q).isSome)
    (hnone : c.table.entry p = none) : c.table.firstFree Part.numbers = some p := by
  cases p <;>
    simp_all [Table.firstFree, Part.numbers, List.takeWhile, List.find?, ← Option.not_isSome]

namespace Partial

variable (h : c.Partial) {p : Part} {e : Extent}
include h

/-- The layout is a property of the table and of the size of the card. -/
theorem congr {c' : Card} (ht : c'.table = c.table) (hc : c'.capacity = c.capacity) :
    c'.Partial where
  golden := by
    unfold HasGolden
    rw [ht]
    exact h.golden
  home q hq := by
    rw [ht, home_congr hc]
    exact h.home q hq

/-- A missing partition fits in its place. -/
theorem fits (hp : c.home p = some e) (hnone : c.table.entry p = none) : c.table.Fits e := by
  refine ⟨(home_bounds hp).2, fun q f hq => ?_⟩
  by_cases hq₁ : q = .p1
  · obtain ⟨g, hg, hstop⟩ := h.golden
    rw [hq₁, hg, Option.some.injEq] at hq
    subst hq
    exact fun hm => absurd ((home_bounds hp).1.trans_lt hm.1) (Nat.not_lt.mpr hstop)
  · have hqp : p ≠ q := by
      rintro rfl
      rw [hnone] at hq
      cases hq
    rcases h.home q hq₁ with hn | hn
    · rw [hn] at hq
      cases hq
    · exact home_apart hqp hp (hn ▸ hq)

/-- Removing a partition keeps the layout. -/
theorem rm (hp : p ≠ .p1) : (c.apply (.rm p)).Partial where
  golden := by
    obtain ⟨g, hg, hstop⟩ := h.golden
    exact ⟨g, (c.table.remove_of_ne hp.symm).trans hg, hstop⟩
  home q hq := by
    by_cases hqp : q = p
    · subst hqp
      exact Or.inl (c.table.remove_self q)
    · have he : (c.apply (.rm p)).table.entry q = c.table.entry q := c.table.remove_of_ne hqp
      have hh : (c.apply (.rm p)).home q = c.home q := home_congr rfl q
      rw [he, hh]
      exact h.home q hq

/-- Making a partition in its place, with the earlier numbers taken, keeps the layout. -/
theorem mkpart (hp : c.home p = some e)
    (hbefore : ∀ q ∈ Part.numbers.takeWhile (· ≠ p), (c.table.entry q).isSome)
    {start : ℕ} {stop : Option ℕ} (he : c.extent start stop = e) :
    (c.apply (.mkpart start stop)).Partial ∧
      (c.apply (.mkpart start stop)).table.entry = Function.update c.table.entry p (some e) := by
  have hne : p ≠ .p1 := by
    rintro rfl
    simp [Card.home] at hp
  have hentry : (c.apply (.mkpart start stop)).table.entry =
      Function.update c.table.entry p (some e) := by
    rcases h.home p hne with hnone | hin
    · rw [Card.apply, he]
      exact Table.insert_of_fits (firstFree_of_before hbefore hnone) (h.fits hp hnone)
    · rw [hp] at hin
      rw [Card.apply, he, ← hin, Function.update_eq_self]
      exact congrArg Table.entry (Table.insert_of_entry hin)
  refine ⟨⟨?_, fun q hq => ?_⟩, hentry⟩
  · obtain ⟨g, hg, hstop⟩ := h.golden
    exact ⟨g, by rw [hentry, Function.update_of_ne hne.symm, hg], hstop⟩
  · have hh : (c.apply (.mkpart start stop)).home q = c.home q := home_congr rfl q
    rw [hentry, hh]
    by_cases hqp : q = p
    · subst hqp
      exact Or.inr (by rw [Function.update_self, hp])
    · rw [Function.update_of_ne hqp]
      exact h.home q hq

end Partial

end Layout

end Card

end Meta3dr
