import Meta3dr.Init.Boot
import Meta3dr.Program.Triple
import Meta3dr.Properties.Sample

/-!
# What is mounted

The script mounts, checks, formats and repartitions the same four partitions. LOG is mounted while
the main part looks for requests, LATEST while a tarball is installed, GOLDEN in a factory reset, and
the boot partition and RWFS in `mount_and_boot`. None of them is worked on while it is mounted, and
`mount_and_boot` starts with nothing mounted.

## Main definitions

* `Machine.Mounted`: a partition is mounted
* `Respects s cmd`: a command does not work on a mounted partition, nor where one lies
* `Held ms s`: no partitions are mounted but by the mounts `ms`, the last one first
* `RootNamed w c`: every `root=` that `read_args` reads names partition 1 or 2

## Main results

* `Held.mount`, `Held.umountWhere`, `Held.umount`: the rules for the mounts
* `mounts_respected`: a boot works on no mounted partition
-/

namespace Meta3dr

open Shell Storage Program Prog

/-! ## Mounted partitions -/

/-- A partition is mounted. -/
def Machine.Mounted (s : Machine) (p : Part) : Prop := ∃ m ∈ s.mounts, m.source = .part p

namespace Cmd

/-- The partition that a command checks, formats or deletes. -/
def target : Cmd → Option Part
  | .fsck p _ | .mkfs p _ _ | .partedRm p => some p
  | _ => none

/-- The bytes of the card that a command of this kind is run on. -/
def range (c : Card) : Cmd → Option Extent
  | .fsck p _ | .mkfs p _ _ | .partedRm p => c.table.entry p
  | .partedMkpart start stop => some (c.extent start stop)
  | _ => none

end Cmd

/-- No check, formatting, deletion or creation of a partition that is mounted, or that overlaps a
mounted one. -/
structure Respects (s : Machine) (cmd : Cmd) : Prop where
  target : ∀ p ∈ cmd.target, ¬ s.Mounted p
  range : ∀ e ∈ cmd.range s.card, ∀ p f, s.Mounted p → s.card.table.entry p = some f → ¬ e.Meets f

/-- A command on a partition respects the mounts of the others: partitions do not overlap. -/
theorem respects_of_target {s : Machine} {cmd : Cmd} (h : ∀ p ∈ cmd.target, ¬ s.Mounted p)
    (hmk : ∀ a b, cmd ≠ .partedMkpart a b) : Respects s cmd := by
  have hpart : ∀ p, ¬ s.Mounted p → ∀ e ∈ s.card.table.entry p, ∀ q f, s.Mounted q →
      s.card.table.entry q = some f → ¬ e.Meets f := fun p hp e he q f hq hf =>
    s.card.table.apart p q e f (fun hpq => hp (hpq ▸ hq)) he hf
  refine ⟨h, ?_⟩
  cases cmd with
  | fsck p kind => exact hpart p (h p rfl)
  | mkfs p kind label => exact hpart p (h p rfl)
  | partedRm p => exact hpart p (h p rfl)
  | partedMkpart a b => exact absurd rfl (hmk a b)
  | _ => exact fun e he => absurd he (by simp [Cmd.range])

theorem respects_of_unmounted {s : Machine} (h : ∀ p, ¬ s.Mounted p) (cmd : Cmd) :
    Respects s cmd :=
  ⟨fun p _ => h p, fun _ _ p _ hp => absurd hp (h p)⟩

/-! ## The mounts of the main part -/

/-- No partitions are mounted but by these mounts, the last one first. -/
def Held (ms : List Mount) (s : Machine) : Prop :=
  ∃ l base, s.mounts = l ++ base ∧ l.Sublist ms ∧ ∀ m ∈ base, ∀ p, m.source ≠ .part p

/-- The commands that change neither the mounts nor the working directory. -/
def Steady : Cmd → Prop
  | .mountPseudo _ _ | .mountPart _ _ | .mountRoot _ _ | .mountImage _ _ | .mountUnion _ _ _
  | .moveMount _ _ | .umount _ | .umountPart _ | .cd _ => False
  | _ => True

section Held

variable {w : World} {x : Circumstances} {s : Machine} {ms : List Mount} {cmd : Cmd}

theorem Held.mounted (h : Held ms s) {p : Part} (hp : s.Mounted p) :
    ∃ m ∈ ms, m.source = .part p := by
  obtain ⟨l, base, hs, hl, hbase⟩ := h
  obtain ⟨m, hm, hsrc⟩ := hp
  rw [hs] at hm
  rcases List.mem_append.mp hm with hm | hm
  · exact ⟨m, hl.subset hm, hsrc⟩
  · exact absurd hsrc (hbase m hm p)

theorem held_nil : Held [] s ↔ ∀ p, ¬ s.Mounted p := by
  constructor
  · intro h p hp
    obtain ⟨m, hm, -⟩ := h.mounted hp
    cases hm
  · exact fun h => ⟨[], s.mounts, rfl, List.Sublist.slnil, fun m hm p hp => h p ⟨m, hm, hp⟩⟩

theorem put_steady (p : Path) (n : Node) : (s.put p n).mounts = s.mounts ∧ (s.put p n).cwd = s.cwd := by
  unfold Machine.put
  repeat' split
  all_goals exact ⟨rfl, rfl⟩

theorem appendTo_steady (p : Path) (t : Text) :
    (s.appendTo p t).mounts = s.mounts ∧ (s.appendTo p t).cwd = s.cwd := by
  unfold Machine.appendTo
  dsimp only
  split
  · exact put_steady _ _
  · split_ifs
    · exact put_steady _ _
    · exact ⟨rfl, rfl⟩
  · exact ⟨rfl, rfl⟩

/-- A steady command keeps the mounts and the working directory. -/
theorem act_steady (h : Steady cmd) (b : Bool) :
    (act w x b s cmd).mounts = s.mounts ∧ (act w x b s cmd).cwd = s.cwd := by
  cases cmd with
  | mkdir opt p =>
    cases opt <;> simp only [act]
    · split_ifs
      · exact put_steady _ _
      · exact ⟨rfl, rfl⟩
    · repeat' split
      all_goals exact ⟨rfl, rfl⟩
    · exact ⟨rfl, rfl⟩
  | touch p =>
    simp only [act]
    split_ifs
    · exact ⟨rfl, rfl⟩
    · exact appendTo_steady _ _
  | append line p => exact appendTo_steady _ _
  | rm force p => exact unlink_mounts _ _
  | rmWords ts => exact rmWords_mounts ts s
  | tar ts dir =>
    simp only [act, Machine.unpack]
    repeat' split
    all_goals exact ⟨rfl, rfl⟩
  | dd src =>
    simp only [act]
    repeat' split
    all_goals exact ⟨rfl, rfl⟩
  | partedRm p =>
    simp only [act]
    split_ifs <;> exact ⟨rfl, rfl⟩
  | partedMkpart a b =>
    simp only [act]
    split_ifs <;> exact ⟨rfl, rfl⟩
  | mkfs p kind label =>
    simp only [act]
    split_ifs <;> exact ⟨rfl, rfl⟩
  | fsck p kind =>
    simp only [act]
    split_ifs <;> exact ⟨rfl, rfl⟩
  | mountPseudo type dir => exact h.elim
  | mountPart p dir => exact h.elim
  | mountRoot device dir => exact h.elim
  | mountImage images dir => exact h.elim
  | mountUnion upper lower dir => exact h.elim
  | moveMount src dst => exact h.elim
  | umount dirs => exact h.elim
  | umountPart p => exact h.elim
  | cd p => exact h.elim
  | _ => exact ⟨rfl, rfl⟩

theorem Held.of_mounts {s' : Machine} (h : Held ms s) (hm : s'.mounts = s.mounts) : Held ms s' := by
  obtain ⟨l, base, hs, hl, hbase⟩ := h
  exact ⟨l, base, hm.trans hs, hl, hbase⟩

/-- Mounting a partition. -/
theorem Held.mount (h : Held ms s) (p : Part) (dir : Path) :
    Held (⟨dir, .part p, false⟩ :: ms) (s.after (act w x true s (.mountPart p dir))) := by
  have hcases : (act w x true s (.mountPart p dir)).mounts = s.mounts ∨
      (act w x true s (.mountPart p dir)).mounts = ⟨dir, .part p, false⟩ :: s.mounts := by
    simp only [act, mountPart, Machine.mountOn]
    repeat' split
    all_goals first
      | exact Or.inl rfl
      | exact Or.inr rfl
  obtain ⟨l, base, hs, hl, hbase⟩ := h
  rcases hcases with hm | hm
  · exact ⟨l, base, hm.trans hs, hl.cons _, hbase⟩
  · exact ⟨_ :: l, base, hm.trans (by rw [hs, List.cons_append]), hl.cons_cons _, hbase⟩

/-- Unmounting leaves no more mounts. -/
theorem Held.umountWhere (h : Held ms s) (b : Mount → Bool) :
    Held ms (s.after (s.umountWhere b)) := by
  obtain ⟨l, base, hs, hl, hbase⟩ := h
  unfold Machine.umountWhere
  split
  · exact ⟨l, base, hs, hl, hbase⟩
  · split_ifs
    · exact ⟨l, base, hs, hl, hbase⟩
    · rw [Machine.after_mk, hs, List.eraseP_append]
      split_ifs
      · exact ⟨_, base, rfl, List.eraseP_sublist.trans hl, hbase⟩
      · exact ⟨l, _, rfl, hl, fun m hm => hbase m (List.mem_of_mem_eraseP hm)⟩

/-- Unmounting a directory, which is not busy. -/
theorem Held.umount (h : Held ms s) (hcwd : s.cwd = []) {dir : Path} (hdir : dir ≠ []) :
    Held (ms.eraseP (·.point = dir)) (s.after (s.umountWhere (·.point = dir))) := by
  obtain ⟨l, base, hs, hl, hbase⟩ := h
  have hl' := hl.eraseP (p := fun m : Mount => m.point = dir)
  unfold Machine.umountWhere
  split
  · rename_i hnone
    have hsame : l.eraseP (fun m : Mount => m.point = dir) = l := List.eraseP_of_forall_not
      fun m hm => List.find?_eq_none.mp hnone m (by simp [hs, hm])
    exact ⟨l, base, hs, hsame ▸ hl', hbase⟩
  · rename_i m hm
    have hpoint : m.point = dir := by simpa using List.find?_some hm
    rw [if_neg (by simpa [hcwd, hpoint] using hdir), Machine.after_mk, hs, List.eraseP_append]
    split_ifs with hany
    · exact ⟨_, base, rfl, hl', hbase⟩
    · have hsame : l.eraseP (fun m : Mount => m.point = dir) = l := List.eraseP_of_forall_not
        fun m hm hd => hany (List.any_eq_true.mpr ⟨m, hm, hd⟩)
      exact ⟨l, _, rfl, hsame ▸ hl', fun m hm => hbase m (List.mem_of_mem_eraseP hm)⟩

theorem umountWhere_cwd (b : Mount → Bool) : (s.umountWhere b).cwd = s.cwd := by
  unfold Machine.umountWhere
  repeat' split
  all_goals rfl

/-! ### Triples -/

/-- The mounts, and a property of the working directory. -/
def Stage (ms : List Mount) (D : Path → Prop) (s : Machine) : Prop := Held ms s ∧ D s.cwd

/-- The working directory in which no mount is busy. -/
def AtRoot (d : Path) : Prop := d = []

/-- Any working directory. -/
def Anywhere (_ : Path) : Prop := True

/-- A steady command that works on none of the mounted partitions. -/
def Allowed (ms : List Mount) (cmd : Cmd) : Prop :=
  Steady cmd ∧ (∀ p ∈ cmd.target, ∀ m ∈ ms, m.source ≠ .part p) ∧
    ∀ a b, cmd = .partedMkpart a b → ms = []

theorem Allowed.respects (hc : Allowed ms cmd) (h : Held ms s) : Respects s cmd := by
  obtain ⟨-, htarget, hmk⟩ := hc
  by_cases hnone : ms = []
  · subst hnone
    exact respects_of_unmounted (held_nil.mp h) cmd
  · refine respects_of_target (fun p hp hm => ?_) fun a b hab => hnone (hmk a b hab)
    obtain ⟨m, hmem, hsrc⟩ := h.mounted hm
    exact htarget p hp m hmem hsrc

/-- The triples of this module: all commands respect the mounts. -/
abbrev Respecting (w : World) (x : Circumstances) {α : Type} (P : Machine → Prop) (p : Script α)
    (Q : α → Machine → Prop) : Prop :=
  Triple (step w x) Respects P p Q fun _ _ => True

namespace Respecting

variable {D : Path → Prop} {α β : Type} {Q : α → Machine → Prop}

/-- A program of allowed commands keeps the stage. -/
theorem allowed {p : Script α} (h : p.Only (Allowed ms) fun _ => True) :
    Respecting w x (Stage ms D) p fun _ => Stage ms D := by
  refine (Triple.of_only h fun s c hc hs => ⟨hc.respects hs.1, ?_⟩).mono (fun _ h => h)
    (fun _ _ h => h) fun _ _ _ => trivial
  obtain ⟨hm, hd⟩ := act_steady (w := w) (x := x) (s := s) hc.1 true
  refine ⟨hs.1.of_mounts hm, ?_⟩
  have hcwd : (step w x s c).2.cwd = s.cwd := hd
  exact hcwd ▸ hs.2

/-- A program of allowed commands in front of another one. -/
theorem andThen {p : Script β} {f : β → Script α} (h : p.Only (Allowed ms) fun _ => True)
    (hf : ∀ b, Respecting w x (Stage ms D) (f b) Q) : Respecting w x (Stage ms D) (p >>= f) Q :=
  Triple.bind _ (allowed h) hf

/-- A command that works on no partition, in front of a program. -/
theorem command {P M : Machine → Prop} {k : Unit → Script α} (htarget : cmd.target = none)
    (hmk : ∀ a b, cmd ≠ .partedMkpart a b) (hP : ∀ s, P s → M (step w x s cmd).2)
    (hk : Respecting w x M (k ()) Q) : Respecting w x P (sh cmd >>= k) Q :=
  Triple.issue (fun _ => M) (fun s hs => ⟨respects_of_target (by simp [htarget]) hmk, hP s hs⟩)
    fun _ => hk

theorem mount {k : Unit → Script α} (p : Part) (dir : Path)
    (hk : Respecting w x (Stage (⟨dir, .part p, false⟩ :: ms) D) (k ()) Q) :
    Respecting w x (Stage ms D) (sh (.mountPart p dir) >>= k) Q := by
  refine command rfl (by simp) (fun s hs => ⟨hs.1.mount p dir, ?_⟩) hk
  have hcwd : (act w x true s (.mountPart p dir)).cwd = s.cwd := by
    simp only [act, mountPart, Machine.mountOn]
    repeat' split
    all_goals rfl
  have hd : (step w x s (.mountPart p dir)).2.cwd = s.cwd := hcwd
  exact hd ▸ hs.2

theorem umountPart {k : Unit → Script α} (p : Part)
    (hk : Respecting w x (Stage ms D) (k ()) Q) :
    Respecting w x (Stage ms D) (sh (.umountPart p) >>= k) Q := by
  refine command rfl (by simp) (fun s hs => ⟨hs.1.umountWhere _, ?_⟩) hk
  have hd : (step w x s (.umountPart p)).2.cwd = s.cwd := umountWhere_cwd _
  exact hd ▸ hs.2

theorem umount {k : Unit → Script α} {dir : Path} (hdir : dir ≠ [])
    (hk : Respecting w x (Stage (ms.eraseP (·.point = dir)) AtRoot) (k ()) Q) :
    Respecting w x (Stage ms AtRoot) (sh (.umount [dir]) >>= k) Q := by
  refine command rfl (by simp) (fun s hs => ⟨hs.1.umount hs.2 hdir, ?_⟩) hk
  have hd : (step w x s (.umount [dir])).2.cwd = s.cwd := umountWhere_cwd _
  exact hd.trans hs.2

/-- `umount` of two directories. -/
theorem umount_two {k : Unit → Script α} {dir dir' : Path} (hdir : dir ≠ []) (hdir' : dir' ≠ [])
    (hk : Respecting w x (Stage ((ms.eraseP (·.point = dir)).eraseP (·.point = dir')) AtRoot)
      (k ()) Q) :
    Respecting w x (Stage ms AtRoot) (sh (.umount [dir, dir']) >>= k) Q := by
  refine command rfl (by simp) (fun s hs => ?_) hk
  have hfirst : Stage (ms.eraseP (·.point = dir)) AtRoot (s.after (s.umountWhere (·.point = dir))) :=
    ⟨hs.1.umount hs.2 hdir, (umountWhere_cwd (s := s) _).trans hs.2⟩
  refine ⟨(hfirst.1.umount hfirst.2 hdir').of_mounts rfl, ?_⟩
  exact (umountWhere_cwd (s := s.after (s.umountWhere (·.point = dir))) _).trans hfirst.2

/-- `cd` keeps the mounts. -/
theorem cd {k : Unit → Script α} (p : Path) (hk : Respecting w x (Stage ms Anywhere) (k ()) Q) :
    Respecting w x (Stage ms D) (sh (.cd p) >>= k) Q := by
  refine command rfl (by simp) (fun s hs => ⟨hs.1.of_mounts ?_, trivial⟩) hk
  have hm : (act w x true s (.cd p)).mounts = s.mounts := by
    simp only [act]
    split_ifs <;> rfl
  exact hm

/-- `cd` to the root directory. -/
theorem cd_root {k : Unit → Script α} (hk : Respecting w x (Stage ms AtRoot) (k ()) Q) :
    Respecting w x (Stage ms D) (sh (.cd []) >>= k) Q := by
  refine command rfl (by simp) (fun s hs => ?_) hk
  have hbelow : s.below [] = [] := by
    unfold Machine.below
    split <;> simp
  have hroot : s.stat [] = some .dir := Machine.stat_dir _ (by rw [Machine.get, hbelow, Files.get_nil])
  have hact : act w x true s (.cd []) = ⟨{}, [], s.ram, s.mounts, []⟩ := if_pos hroot
  have hstep : (step w x s (.cd [])).2 = ⟨s.card, s.ram, s.mounts, []⟩ := by
    rw [step, hact]
    rfl
  rw [hstep]
  exact ⟨hs.1.of_mounts rfl, rfl⟩

/-- Nothing follows a program that never returns. -/
theorem never {P : Machine → Prop} {p : Script β} {f : β → Script α}
    (h : Respecting w x P p fun _ _ => False) : Respecting w x P (p >>= f) Q :=
  Triple.bind _ h fun _ _ hs => hs.elim

end Respecting

/-! ### The functions of the main part -/

/-- GOLDEN mounted in a factory reset. -/
abbrev goldenHeld : Mount := ⟨mntGolden, .part .p1, false⟩

theorem respecting_end (D : Path → Prop) : Respecting w x (Stage ms D)
    (setLedDone >>= fun _ => sh .sync >>= fun _ => shutdown) fun _ _ => False :=
  Respecting.andThen (by simp [setLedDone, sh, Allowed, Steady, Cmd.target]) fun _ =>
    Respecting.andThen (by simp [sh, Allowed, Steady, Cmd.target]) fun _ =>
      Triple.exit fun _ _ => trivial

theorem respecting_factoryReset :
    Respecting w x (Stage [] AtRoot) factoryReset fun _ _ => False := by
  have hend : Respecting w x (Stage [goldenHeld] AtRoot)
      (setLedDone >>= fun _ => sh (.umount [mntGolden]) >>= fun _ => sh .sync >>= fun _ => shutdown)
      fun _ _ => False :=
    Respecting.andThen (by simp [setLedDone, sh, Allowed, Steady, Cmd.target]) fun _ =>
      Respecting.umount (by simp) <|
        Respecting.andThen (by simp [sh, Allowed, Steady, Cmd.target]) fun _ =>
          Triple.exit fun _ _ => trivial
  unfold factoryReset
  refine Respecting.andThen (by simp [setScreenUpdating, sh, Allowed, Steady, Cmd.target]) fun _ => ?_
  refine Respecting.andThen (by simp [setLedUpdating, sh, Allowed, Steady, Cmd.target]) fun _ => ?_
  refine Respecting.andThen (by simp [removePartitions, sh, Allowed, Steady]) fun _ => ?_
  refine Respecting.andThen (by simp [createPartitions, sh, Allowed, Steady]) fun _ => ?_
  refine Respecting.andThen (by simp [sh, Allowed, Steady]) fun _ => ?_
  refine Respecting.mount .p1 mntGolden ?_
  refine Respecting.andThen (by simp [cond, Allowed, Steady, Cmd.target]) fun b => ?_
  refine Triple.ite (fun _ => ?_) fun _ => hend
  exact Respecting.andThen (by simp [sh, Allowed, Steady, Cmd.target]) fun _ => hend

theorem respecting_checkLog :
    Respecting w x (Stage [] AtRoot) checkLog fun _ => Stage [] AtRoot := by
  unfold checkLog
  refine Respecting.andThen (by simp [status, Allowed, Steady]) fun n => ?_
  refine Triple.ite (fun _ => ?_) fun _ => Triple.ret fun _ hs => hs
  refine Respecting.andThen (by simp [setLedUpdating, sh, Allowed, Steady, Cmd.target]) fun _ => ?_
  refine Respecting.umountPart .p4 ?_
  refine Respecting.andThen (by simp [sh, Allowed, Steady]) fun _ => ?_
  refine Respecting.andThen (by simp [sh, Allowed, Steady]) fun _ => ?_
  refine Respecting.andThen (by simp [sh, Allowed, Steady]) fun _ => ?_
  refine Respecting.andThen (by simp [setLedDone, sh, Allowed, Steady, Cmd.target]) fun _ => ?_
  refine Respecting.andThen (by simp [sh, Allowed, Steady, Cmd.target]) fun _ => ?_
  refine Respecting.mount .p4 mntLog ?_
  refine Respecting.andThen (by simp [sh, Allowed, Steady, Cmd.target]) fun _ => ?_
  refine Respecting.andThen (by simp [sh, Allowed, Steady, Cmd.target]) fun _ => ?_
  exact Respecting.umount (by simp) (Triple.ret fun _ hs => by simpa using hs)

theorem respecting_reset (D : Path → Prop) :
    Respecting w x (Stage [] D) resetSettings fun _ => Stage [] D :=
  Respecting.allowed (by simp [resetSettings, sh, Allowed, Steady])

theorem respecting_reject (message : String) (D : Path → Prop) :
    Respecting w x (Stage ms D) (reject message) fun _ _ => False := by
  unfold reject
  refine Respecting.andThen (by simp [sh, Allowed, Steady, Cmd.target]) fun _ => ?_
  refine Respecting.andThen (by simp [sh, Allowed, Steady, Cmd.target]) fun _ => ?_
  exact respecting_end D

theorem respecting_install (file : Text) :
    Respecting w x (Stage [logMount] AtRoot) (install file) fun _ _ => False := by
  have hfinish : Respecting w x (Stage [latestMount, logMount] AtRoot) (do
      sh (.rm false UPDATE)
      if ← cond (.isThere RESETSETTINGS) then
        sh (.umount [mntLog, mntLatest])
        resetSettings
      setLedDone
      sh .sync
      shutdown) fun _ _ => False := by
    refine Respecting.andThen (by simp [sh, Allowed, Steady, Cmd.target]) fun _ => ?_
    refine Respecting.andThen (by simp [cond, Allowed, Steady, Cmd.target]) fun b => ?_
    refine Triple.ite (fun _ => ?_) fun _ => respecting_end AtRoot
    refine Respecting.umount_two (by simp) (by simp) ?_
    refine Triple.bind (fun _ => Stage [] AtRoot) ?_ fun _ => respecting_end AtRoot
    exact respecting_reset AtRoot
  unfold install
  refine Respecting.andThen (by simp [sh, Allowed, Steady, Cmd.target, logMount]) fun _ => ?_
  refine Respecting.andThen (by simp [sh, Allowed, Steady, Cmd.target]) fun _ => ?_
  refine Respecting.mount .p2 mntLatest ?_
  refine Respecting.andThen (by simp [out, Allowed, Steady, Cmd.target]) fun archive => ?_
  refine Respecting.andThen (by simp [sh, Allowed, Steady, Cmd.target]) fun _ => ?_
  refine Respecting.andThen (by simp [cond, Allowed, Steady, Cmd.target]) fun b => ?_
  refine Triple.ite (fun _ => ?_) fun _ => hfinish
  exact Respecting.andThen (by simp [sh, Allowed, Steady, Cmd.target]) fun _ => hfinish

theorem respecting_md5Accepts (file : Text) :
    Respecting w x (Stage ms AtRoot) (md5Accepts file) fun _ => Stage ms Anywhere := by
  unfold md5Accepts
  refine Respecting.cd updates ?_
  exact Respecting.allowed (by simp [out, cond, Allowed, Steady, Cmd.target])

theorem respecting_update :
    Respecting w x (Stage [logMount] AtRoot) update fun _ _ => False := by
  unfold update
  refine Respecting.andThen (by simp [sh, Allowed, Steady, Cmd.target]) fun _ => ?_
  refine Respecting.andThen (by simp [sh, Allowed, Steady, Cmd.target]) fun _ => ?_
  refine Respecting.andThen (by simp [setScreenUpdating, sh, Allowed, Steady, Cmd.target]) fun _ => ?_
  refine Respecting.andThen (by simp [setLedUpdating, sh, Allowed, Steady, Cmd.target]) fun _ => ?_
  refine Respecting.andThen (by simp [chooseTarball, out, Allowed, Steady, Cmd.target]) fun file => ?_
  refine Respecting.andThen (by simp [out, Allowed, Steady, Cmd.target]) fun name => ?_
  refine Respecting.andThen (by simp [cond, Allowed, Steady, Cmd.target]) fun b => ?_
  refine Triple.ite (fun _ => (respecting_reject _ _).never) fun _ => ?_
  refine Respecting.andThen (by simp [out, Allowed, Steady, Cmd.target]) fun list => ?_
  refine Respecting.andThen (by simp [cond, Allowed, Steady, Cmd.target]) fun b => ?_
  refine Triple.ite (fun _ => ?_) fun _ => ?_
  · refine Respecting.andThen (by simp [rmExpanded, sh, Allowed, Steady, Cmd.target]) fun _ => ?_
    exact (respecting_reject _ _).never
  refine Triple.bind _ (respecting_md5Accepts file) fun b => ?_
  refine Triple.ite (fun _ => ?_) fun _ => Respecting.cd_root (respecting_install file)
  refine Respecting.andThen (by simp [rmExpanded, sh, Allowed, Steady, Cmd.target]) fun _ => ?_
  refine Respecting.andThen (by simp [rmExpanded, sh, Allowed, Steady, Cmd.target]) fun _ => ?_
  exact (respecting_reject _ _).never

theorem respecting_requests :
    Respecting w x (Stage [] AtRoot) requests fun _ => Stage [] AtRoot := by
  have hend : Respecting w x (Stage [logMount] AtRoot) (sh (.umount [mntLog]))
      fun _ => Stage [] AtRoot :=
    Respecting.umount (by simp) (Triple.ret fun _ hs => by simpa [logMount] using hs)
  unfold requests
  refine Respecting.andThen (by simp [sh, Allowed, Steady, Cmd.target]) fun _ => ?_
  refine Respecting.mount .p4 mntLog ?_
  refine Respecting.andThen (by simp [cond, Allowed, Steady, Cmd.target]) fun b => ?_
  refine Triple.ite (fun _ => respecting_update.never) fun _ => ?_
  refine Respecting.andThen (by simp [cond, Allowed, Steady, Cmd.target]) fun b => ?_
  refine Triple.ite (fun _ => ?_) fun _ => ?_
  · refine Respecting.umount (by simp) ?_
    exact Respecting.never (by simpa using respecting_factoryReset)
  refine Respecting.andThen (by simp [cond, Allowed, Steady, Cmd.target]) fun b => ?_
  refine Triple.ite (fun _ => ?_) fun _ => hend
  refine Respecting.andThen (by simp [setScreenUpdating, sh, Allowed, Steady, Cmd.target]) fun _ => ?_
  refine Respecting.andThen (by simp [setLedUpdating, sh, Allowed, Steady, Cmd.target]) fun _ => ?_
  refine Respecting.umount (by simp) ?_
  refine Triple.bind (fun _ => Stage [] AtRoot) (by simpa using respecting_reset AtRoot) fun _ => ?_
  refine Respecting.andThen (by simp [setLedDone, sh, Allowed, Steady, Cmd.target]) fun _ => ?_
  refine Respecting.andThen (by simp [sh, Allowed, Steady, Cmd.target]) fun _ => ?_
  exact Triple.exit fun _ _ => trivial

/-- The commands that work on no partition. -/
def Idle (cmd : Cmd) : Prop := cmd.target = none ∧ ∀ a b, cmd ≠ .partedMkpart a b

theorem Respecting.idle {α : Type} {p : Script α} (h : p.Only Idle fun _ => True) :
    Respecting w x (fun _ => True) p fun _ _ => True :=
  (Triple.of_only h fun _ _ hc _ => ⟨respects_of_target (by simp [hc.1]) hc.2, trivial⟩).mono
    (fun _ h => h) (fun _ _ h => h) fun _ _ _ => trivial

/-- What follows the first look at the card and at the command line. -/
theorem respecting_body (args : Args) : Respecting w x (Stage [] AtRoot) (do
      if !(← cond (.nodeExists .p2)) then
        setScreenUpdating
        setLedUpdating
        createPartitions
        setLedDone
      else
        let force ← out (.expand args.forceFactoryReset)
        if ← cond (.test (force ++ ["==".toList, "1".toList])) then
          factoryReset
        checkLog
        requests
      return args.rootDevice) fun _ => Stage [] AtRoot := by
  refine Respecting.andThen (by simp [cond, Allowed, Steady, Cmd.target]) fun b => ?_
  refine Triple.ite (fun _ => ?_) fun _ => ?_
  · refine Respecting.andThen (by simp [setScreenUpdating, sh, Allowed, Steady, Cmd.target]) fun _ => ?_
    refine Respecting.andThen (by simp [setLedUpdating, sh, Allowed, Steady, Cmd.target]) fun _ => ?_
    refine Respecting.andThen (by simp [createPartitions, sh, Allowed, Steady]) fun _ => ?_
    refine Respecting.andThen (by simp [setLedDone, sh, Allowed, Steady, Cmd.target]) fun _ => ?_
    exact Triple.ret fun _ hs => hs
  refine Respecting.andThen (by simp [out, Allowed, Steady, Cmd.target]) fun force => ?_
  refine Respecting.andThen (by simp [cond, Allowed, Steady, Cmd.target]) fun b => ?_
  refine Triple.ite (fun _ => respecting_factoryReset.never) fun _ => ?_
  refine Triple.bind _ respecting_checkLog fun _ => ?_
  exact Triple.bind _ respecting_requests fun _ => Triple.ret fun _ hs => hs

/-- **The main part works on no mounted partition, and ends with none mounted.** -/
theorem respecting_main (c : Card) : main.wp (step w x) Respects (fun _ => Stage [] AtRoot)
    (fun _ _ => True) (powerOn w c) := by
  have hready : Stage [] AtRoot (ready w c) := by
    refine ⟨held_nil.mpr ?_, rfl⟩
    rintro p ⟨m, hm, hsrc⟩
    simp only [ready, baseMounts, List.mem_cons, List.not_mem_nil, or_false] at hm
    rcases hm with rfl | rfl | rfl <;> cases hsrc
  -- the state after `early_setup` is known, and it works on no partition
  have hearly : earlySetup.wp (step w x) Respects (fun _ s => s = ready w c) (fun _ _ => True)
      (powerOn w c) := by
    have hidle : earlySetup.Only Idle fun _ => True := by
      simp [earlySetup, sh, Idle, Cmd.target]
    rw [Prog.wp_iff, (earlySetup_returns w x c).run]
    exact ⟨fun y hy => (Respecting.idle hidle).of_mem_trace trivial hy, rfl⟩
  unfold main
  refine (Prog.wp_bind _ _ _ _ _ _ _).mpr (hearly.mono (fun _ _ h => h) (fun _ s hs => ?_)
    fun _ _ h => h)
  subst hs
  refine Respecting.andThen ?_ (fun args => respecting_body args) _ hready
  simp [readArgs, out, Allowed, Steady, Cmd.target]

end Held

/-! ## The mounts of `mount_and_boot` -/

section Boot

variable {w : World} {x : Circumstances} {s : Machine} {cmd : Cmd} {p : Part}

theorem umountWhere_sublist (b : Mount → Bool) : (s.umountWhere b).mounts.Sublist s.mounts := by
  unfold Machine.umountWhere
  split
  · exact List.Sublist.refl _
  · split_ifs
    · exact List.Sublist.refl _
    · exact List.eraseP_sublist

theorem umounts_sublist (dirs : List Path) (s : Machine) :
    (Machine.umounts dirs s).mounts.Sublist s.mounts := by
  induction dirs generalizing s with
  | nil => exact List.Sublist.refl _
  | cons dir dirs ih =>
    have hfirst := umountWhere_sublist (s := s) (·.point = dir)
    cases dirs with
    | nil => exact hfirst
    | cons dir' dirs => exact (ih (s.after (s.umountWhere (·.point = dir)))).trans hfirst

/-- What a command mounts. -/
theorem mounted_of_step (h : (step w x s cmd).2.Mounted p) : s.Mounted p ∨
    (∃ dir, cmd = .mountPart p dir) ∨ ∃ d dir, cmd = .mountRoot [d] dir ∧ partOfWord d = some p := by
  obtain ⟨m, hm, hsrc⟩ := h
  have hmem : m ∈ (act w x true s cmd).mounts := hm
  have hold : m ∈ s.mounts → s.Mounted p := fun hm' => ⟨m, hm', hsrc⟩
  have hon : ∀ src dir ro ws, m ∈ (s.mountOn src dir ro ws).mounts →
      s.Mounted p ∨ src = .part p := fun src dir ro ws hm' => by
    unfold Machine.mountOn at hm'
    split_ifs at hm'
    · rcases List.mem_cons.mp hm' with rfl | hm'
      · exact Or.inr hsrc
      · exact Or.inl (hold hm')
    · exact Or.inl (hold hm')
  have hmount : ∀ q dir ro, m ∈ (mountPart true s q dir ro).mounts → s.Mounted p ∨ q = p :=
    fun q dir ro hm' => by
      unfold mountPart at hm'
      split_ifs at hm'
      · exact (hon _ _ _ _ hm').imp_right fun he => by injection he
      · exact (hon _ _ _ _ hm').imp_right fun he => by injection he
      · exact Or.inl (hold hm')
  by_cases hsteady : Steady cmd
  · exact Or.inl (hold ((act_steady (w := w) (x := x) (s := s) hsteady true).1 ▸ hmem))
  cases cmd with
  | mountPseudo type dir => exact Or.inl ((hon _ _ _ _ hmem).resolve_right (by simp))
  | mountUnion upper lower dir => exact Or.inl ((hon _ _ _ _ hmem).resolve_right (by simp))
  | umount dirs => exact Or.inl (hold ((umounts_sublist dirs s).subset hmem))
  | umountPart q => exact Or.inl (hold ((umountWhere_sublist _).subset hmem))
  | mountPart q dir =>
    simp only [act] at hmem
    split_ifs at hmem
    · exact Or.inl (hold hmem)
    · exact (hmount _ _ _ hmem).imp_right fun he => Or.inl ⟨dir, by rw [he]⟩
  | mountRoot device dir =>
    simp only [act] at hmem
    split at hmem
    · rename_i d
      split at hmem
      · rename_i q hq
        exact (hmount _ _ _ hmem).imp_right fun he => Or.inr ⟨d, dir, rfl, by rw [hq, he]⟩
      · exact Or.inl (hold hmem)
    · exact Or.inl (hold hmem)
  | mountImage images dir =>
    simp only [act] at hmem
    repeat' split at hmem
    all_goals first
      | exact Or.inl ((hon _ _ _ _ hmem).resolve_right (by simp))
      | exact Or.inl (hold hmem)
  | moveMount src dst =>
    simp only [act] at hmem
    split_ifs at hmem
    · obtain ⟨m', hm', rfl⟩ := List.mem_map.mp hmem
      exact Or.inl ⟨m', hm', by split_ifs at hsrc <;> exact hsrc⟩
    · exact Or.inl (hold hmem)
  | cd q =>
    simp only [act] at hmem
    split_ifs at hmem <;> exact Or.inl (hold hmem)
  | _ => exact absurd trivial hsteady

/-- Only these partitions are mounted. -/
def Within (ps : List Part) (s : Machine) : Prop := ∀ p, s.Mounted p → p ∈ ps

/-- A command that mounts no partition and works on RWFS at most. -/
def OnRwfs : Cmd → Prop
  | .mountPart _ _ | .mountRoot _ _ | .partedMkpart _ _ => False
  | .fsck p _ | .mkfs p _ _ | .partedRm p => p = .p3
  | _ => True

theorem Within.step (h : Within [.p1, .p2] s) (hc : OnRwfs cmd) :
    Respects s cmd ∧ Within [.p1, .p2] (step w x s cmd).2 := by
  refine ⟨respects_of_target (fun p hp hm => ?_) ?_, fun p hp => ?_⟩
  · have hp₃ : p = .p3 := by
      cases cmd <;> simp only [Cmd.target, Option.mem_def, reduceCtorEq, Option.some.injEq] at hp
      all_goals exact hp ▸ hc
    have hmem := h p hm
    simp [hp₃] at hmem
  · rintro a b rfl
    exact hc
  · rcases mounted_of_step hp with hold | ⟨dir, rfl⟩ | ⟨d, dir, rfl, -⟩
    · exact h p hold
    · exact hc.elim
    · exact hc.elim

/-- The name of a partition is one word, without a pattern. -/
theorem words_deviceWord (s : Machine) (p : Part) : s.words (deviceWord p) = [deviceWord p] := by
  have hmagic : hasMagic (deviceWord p) = false := by cases p <;> decide
  have hfields : fields (deviceWord p) = [deviceWord p] := by cases p <;> decide
  rw [Machine.words, expand, hfields, List.flatMap_singleton, expandWord_of_not_magic _ _ _ hmagic]

theorem partOfWord_deviceWord (p : Part) : partOfWord (deviceWord p) = some p := by
  cases p <;> decide

theorem respecting_mountImages {root : Text}
    (hroot : root = [] ∨ root = deviceWord .p1 ∨ root = deviceWord .p2) :
    Respecting w x (Stage [] AtRoot) (mountImages root) fun _ => Within [.p1, .p2] := by
  have hwords : ∀ s : Machine, ∀ d, s.words root = [d] → ∀ p, partOfWord d = some p →
      p = .p1 ∨ p = .p2 := fun s d hd p hp => by
    rcases hroot with rfl | rfl | rfl
    · cases hd
    all_goals
      rw [words_deviceWord, List.cons.injEq] at hd
      rw [← hd.1, partOfWord_deviceWord, Option.some.injEq] at hp
      simp [← hp]
  unfold mountImages
  refine Respecting.andThen (by simp [sh, Allowed, Steady, Cmd.target]) fun _ => ?_
  refine Respecting.andThen (by simp [sh, Allowed, Steady, Cmd.target]) fun _ => ?_
  refine Respecting.andThen (by simp [sh, Allowed, Steady, Cmd.target]) fun _ => ?_
  refine Respecting.andThen (by simp [sh, Allowed, Steady, Cmd.target]) fun _ => ?_
  refine Respecting.andThen (by simp [sh, Allowed, Steady, Cmd.target]) fun _ => ?_
  refine Respecting.andThen (by simp [sh, Allowed, Steady]) fun _ => ?_
  refine Respecting.andThen (by simp [sh, Allowed, Steady]) fun _ => ?_
  refine Triple.issue (fun r s => (∀ p, ¬ s.Mounted p) ∧ ∃ t : Machine, r.out = t.words root)
    (fun s hs => ⟨respects_of_target (by simp [Cmd.target]) (by simp), held_nil.mp hs.1, s, rfl⟩)
    fun r => ?_
  refine Respecting.command (M := Within [.p1, .p2]) rfl (by simp) (fun s hs p hp => ?_) ?_
  · obtain ⟨hnone, t, ht⟩ := hs
    rcases mounted_of_step hp with hold | ⟨dir, hcmd⟩ | ⟨d, dir, hcmd, hd⟩
    · exact absurd hold (hnone p)
    · cases hcmd
    · obtain ⟨hout, -⟩ := Cmd.mountRoot.inj hcmd
      simpa using hwords t d (ht ▸ hout) p hd
  · refine (Triple.of_only (A := OnRwfs) (Z := fun _ => True) ?_ fun s c hc hs => hs.step hc).mono
      (fun _ h => h) (fun _ _ h => h) fun _ _ _ => trivial
    simp [out, sh, OnRwfs]

/-- **`mount_and_boot` works on no mounted partition.** -/
theorem respecting_mountAndBoot {root : Text}
    (hroot : root = [] ∨ root = deviceWord .p1 ∨ root = deviceWord .p2) :
    Respecting w x (Stage [] AtRoot) (mountAndBoot root) fun _ _ => True := by
  unfold mountAndBoot
  refine Triple.bind _ (respecting_mountImages hroot) fun _ => ?_
  refine Triple.bind (fun _ _ => True) ?_ fun _ => Respecting.idle ?_
  · refine (Triple.of_only (A := OnRwfs) (Z := fun _ => True) ?_ fun s c hc hs => hs.step hc).mono
      (fun _ h => h) (fun _ _ _ => trivial) fun _ _ _ => trivial
    simp only [checkRwfs, status_bind, Prog.only_issue]
    refine ⟨by simp [OnRwfs], fun r => ?_⟩
    split_ifs
    · simp [setLedUpdating, setLedDone, sh, OnRwfs]
    · exact Prog.only_ret _
  · simp [mountRootfs, bootLiveRoot, sh, Idle, Cmd.target]

end Boot

/-! ## A whole boot -/

variable (w : World) (x : Circumstances) (c : Card)

/-- Every `root=` in the text that `read_args` reads names partition 1 or 2; without one, so does
`ROOT_DEVICE` where the environment sets it. -/
def RootNamed : Prop :=
  (∀ arg ∈ (ready w c).words w.argsText, "root=".toList.isPrefixOf arg = true →
    optarg arg = deviceWord .p1 ∨ optarg arg = deviceWord .p2) ∧
  ((∀ arg ∈ (ready w c).words w.argsText, "root=".toList.isPrefixOf arg = false) →
    w.environment .rootDevice = [] ∨ w.environment .rootDevice = deviceWord .p1 ∨
      w.environment .rootDevice = deviceWord .p2)

/-- No command of a boot works on a mounted partition or where one lies, and no partition is mounted
when `mount_and_boot` is entered. -/
def MountsRespected : Prop :=
  (∀ s cmd, (s, cmd) ∈ init.trace (step w x) (powerOn w c) → Respects s cmd) ∧
    ∀ root s, main.run (step w x) (powerOn w c) = (.ok root, s) → ∀ p, ¬ s.Mounted p

variable {w x c}

/-- The loop over the command line leaves the last of these names. -/
theorem RootNamed.rootDevice (h : RootNamed w c) : (args w c).rootDevice = [] ∨
    (args w c).rootDevice = deviceWord .p1 ∨ (args w c).rootDevice = deviceWord .p2 := by
  have hloop : ∀ (ts : List Text) (a : Args), (∀ arg ∈ ts, "root=".toList.isPrefixOf arg = true →
      optarg arg = deviceWord .p1 ∨ optarg arg = deviceWord .p2) →
      ((∀ arg ∈ ts, "root=".toList.isPrefixOf arg = false) →
        a.rootDevice = [] ∨ a.rootDevice = deviceWord .p1 ∨ a.rootDevice = deviceWord .p2) →
      ((ts.foldl readArg a).rootDevice = [] ∨ (ts.foldl readArg a).rootDevice = deviceWord .p1 ∨
        (ts.foldl readArg a).rootDevice = deviceWord .p2) := by
    intro ts
    induction ts with
    | nil => exact fun a _ ha => ha (by simp)
    | cons t ts ih =>
      intro a hts ha
      refine ih (readArg a t) (fun arg harg => hts arg (List.mem_cons_of_mem _ harg)) fun hnone => ?_
      unfold readArg
      split_ifs with hroot
      · exact Or.inr (hts t List.mem_cons_self hroot)
      all_goals
        refine ha fun arg harg => ?_
        rcases List.mem_cons.mp harg with rfl | harg
        · exact Bool.eq_false_of_not_eq_true hroot
        · exact hnone arg harg
  exact hloop _ _ h.1 h.2

/-- **A boot works on no mounted partition, and enters `mount_and_boot` with none mounted.** -/
theorem mounts_respected (hroot : RootNamed w c) : MountsRespected w x c := by
  have hmain := respecting_main (w := w) (x := x) c
  refine ⟨fun s cmd hmem => ?_, fun root s hrun => held_nil.mp (hmain.of_ret hrun).1⟩
  suffices hinit : init.wp (step w x) Respects (fun _ _ => True) (fun _ _ => True) (powerOn w c) from
    ((Prog.wp_iff _ _ _ _ _ _).mp hinit).1 (s, cmd) hmem
  rw [init, Prog.wp_bind, Prog.wp_iff]
  refine ⟨((Prog.wp_iff _ _ _ _ _ _).mp hmain).1, ?_⟩
  cases hr : restarts w x c with
  | true =>
    rw [Prog.run_eq _ (main_exits hr).run]
    trivial
  | false =>
    have hend := hmain.of_ret (main_returns hr).run
    rw [(main_returns hr).run]
    exact respecting_mountAndBoot hroot.rootDevice _ hend

/-- The sample card, with an update and a settings reset requested. -/
theorem mounts_respected_sample : MountsRespected Sample.world {} (Sample.card (Sample.withUpdate
    [Sample.file "RESETSETTINGS" "", Sample.file "a.tar.gz" "TAR"])) :=
  mounts_respected (by unfold RootNamed; decide)

end Meta3dr
