import Meta3dr.Init.Frame
import Meta3dr.Init.Script

/-!
# The stages of a boot

Between its functions the script is in one of few stages: set up, with `/proc`, `/sys` and `/dev`
mounted; with LOG mounted on `/mnt/log` as well; and with LATEST mounted on `/mnt/latest`. In each
of them the paths the script spells out lead to the initramfs or to the files of one partition.

## Main definitions

* `ready w c`: the stage after `early_setup`
* `withLog w c`, `withoutLog w c`: after the attempt to mount LOG
* `Machine.LogMounted s`: LOG shows below `/mnt/log`

## Main results

* `earlySetup_returns`, `readArgs_returns`: the beginning of a boot
* `Machine.LogMounted.get`: the paths below `/mnt/log` are the files of partition 4
-/

namespace Meta3dr

open Shell Storage Program

/-! ## Links -/

namespace Machine

variable (s : Machine)

theorem follow_of_not_link {p : Path} (h : ∀ t, s.get p ≠ some (.link t)) (n : ℕ) :
    s.follow n p = p := by
  cases n with
  | zero => rfl
  | succ n =>
    unfold follow
    split
    · exact absurd ‹_› (h _)
    · rfl

/-- An entry that is no link is what its path denotes. -/
theorem stat_of_get {p : Path} (h : ∀ t, s.get p ≠ some (.link t)) : s.stat p = s.get p := by
  unfold stat
  rw [follow_of_not_link s h]
  split
  · exact absurd ‹_› (h _)
  · rfl

theorem stat_dir {p : Path} (h : s.get p = some .dir) : s.stat p = some .dir := by
  rw [stat_of_get s (by simp [h]), h]

theorem stat_none {p : Path} (h : s.get p = none) : s.stat p = none := by
  rw [stat_of_get s (by simp [h]), h]

theorem get_of_isThere {p : Path} (h : s.isThere p = true) : s.get p ≠ none := by
  intro hn
  simp [isThere, stat_none s hn] at h

theorem isThere_none {p : Path} (h : s.get p = none) : s.isThere p = false := by
  simp [isThere, stat_none s h]

theorem read_none {p : Path} (h : s.get p = none) : s.read p = none := by
  simp [read, stat_none s h]

/-- A file with a content is there. -/
theorem isThere_of_read {p : Path} {t : Text} (h : s.read p = some t) : s.isThere p = true := by
  unfold read at h
  split at h
  · simp [isThere, *]
  · cases h

@[simp] theorem get_root_of_mounts (h : s.mounts.find? (fun m => m.point.isPrefixOf []) = none) :
    s.get [] = some .dir := by
  simp [get, treeOf, below, mountOf, h]

end Machine

/-! ## The stages -/

/-- The mounts of `early_setup`. -/
def baseMounts : List Mount :=
  [⟨["dev"], .pseudo "devtmpfs", false⟩, ⟨["sys"], .pseudo "sysfs", false⟩,
    ⟨["proc"], .pseudo "proc", false⟩]

/-- The initramfs after `early_setup`. -/
def World.earlyRam (w : World) : Files :=
  (w.initramfs.files.mkdirs ["run"]).mkdirs ["var", "run"]

/-- The initramfs with the mount point of LOG. -/
def World.logRam (w : World) : Files := w.earlyRam.insert mntLog .dir

/-- LOG mounted on `/mnt/log`. -/
def logMount : Mount := ⟨mntLog, .part .p4, false⟩

/-- The stage after `early_setup`. -/
def ready (w : World) (c : Card) : Machine := ⟨c, w.earlyRam, baseMounts, []⟩

/-- The stage with LOG mounted. -/
def withLog (w : World) (c : Card) : Machine := ⟨c, w.logRam, logMount :: baseMounts, []⟩

/-- LATEST mounted on `/mnt/latest`. -/
def latestMount : Mount := ⟨mntLatest, .part .p2, false⟩

/-- GOLDEN mounted on `/mnt/golden`. -/
def goldenMount : Mount := ⟨mntGolden, .part .p1, false⟩

/-- The stage with the mount point of LOG, and nothing mounted there. -/
def withoutLog (w : World) (c : Card) : Machine := ⟨c, w.logRam, baseMounts, []⟩

section Lookup

variable (w : World) (c : Card) (r : Files) (d : Path)

theorem get_earlyRam {p : Path} (h : p.head? = some "mnt" ∨ p.head? = some "dev") :
    w.earlyRam.get p = w.initramfs.files.get p := by
  have hne : ∀ q : Path, q.head? = some "run" ∨ q.head? = some "var" → p ≠ [] → ¬ p <+: q := by
    rintro (_ | ⟨a, q⟩) hq hp hpre
    · simp at hq
    · rcases p with _ | ⟨b, p⟩
      · exact hp rfl
      · obtain ⟨rfl, -⟩ := List.cons_prefix_cons.mp hpre
        rcases h with h | h <;> rcases hq with hq | hq <;> simp_all
  have hp : p ≠ [] := by rintro rfl; simp at h
  rw [World.earlyRam, Files.get_mkdirs _ (hne _ (by simp) hp),
    Files.get_mkdirs _ (hne _ (by simp) hp)]

@[simp] theorem earlyRam_mnt : w.earlyRam.get ["mnt"] = some .dir := by
  rw [get_earlyRam w (by simp)]
  exact w.initramfs.dirs "mnt" (by simp)

@[simp] theorem earlyRam_below (a : String) (q : Path) :
    w.earlyRam.get ("mnt" :: a :: q) = none := by
  rw [get_earlyRam w (by simp)]
  exact w.initramfs.mntEmpty _ ⟨a :: q, rfl⟩ (by simp)

/-- In the base stage the paths below `/mnt` are in the initramfs. -/
@[simp] theorem mountOf_base (q : Path) :
    (⟨c, r, baseMounts, d⟩ : Machine).mountOf ("mnt" :: q) = none := by
  simp [Machine.mountOf, baseMounts, List.isPrefixOf]

@[simp] theorem get_base (q : Path) :
    (⟨c, r, baseMounts, d⟩ : Machine).get ("mnt" :: q) = r.get ("mnt" :: q) := by
  simp [Machine.get, Machine.treeOf, Machine.below]

@[simp] theorem find_part_base (p : Part) : baseMounts.find? (·.isPart p) = none := rfl

@[simp] theorem find_point_base (q : Path) :
    baseMounts.find? (fun m => decide (m.point = "mnt" :: q)) = none := by
  simp [baseMounts]

/-- A mounted partition shows its files below its mount point. -/
theorem get_mounted {m : Mount} {p : Part} (hm : m.source = .part p) (ms : List Mount) (q : Path) :
    (⟨c, r, m :: ms, d⟩ : Machine).get (m.point ++ q) = (c.files p).get q := by
  have h : (⟨c, r, m :: ms, d⟩ : Machine).mountOf (m.point ++ q) = some m := by
    simp [Machine.mountOf]
  simp only [Machine.get, Machine.treeOf, Machine.below, h, hm, List.drop_left]

/-- A mount hides nothing outside its mount point. -/
theorem get_cons_outside {m : Mount} {q : Path} (h : m.point.isPrefixOf q = false)
    (ms : List Mount) : (⟨c, r, m :: ms, d⟩ : Machine).get q = (⟨c, r, ms, d⟩ : Machine).get q := by
  have hm : (⟨c, r, m :: ms, d⟩ : Machine).mountOf q = (⟨c, r, ms, d⟩ : Machine).mountOf q := by
    simp [Machine.mountOf, h]
  simp only [Machine.get, Machine.treeOf, Machine.below, hm]

theorem hasDev_of_mem {s : Machine} (h : ⟨["dev"], .pseudo "devtmpfs", false⟩ ∈ s.mounts) :
    s.hasDev = true := by
  simp only [Machine.hasDev, List.any_eq_true]
  exact ⟨_, h, by simp⟩

@[simp] theorem hasDev_base : (⟨c, r, baseMounts, d⟩ : Machine).hasDev = true :=
  hasDev_of_mem (by simp [baseMounts])

@[simp] theorem hasDev_cons (m : Mount) (ms : List Mount)
    (h : (⟨c, r, ms, d⟩ : Machine).hasDev = true) :
    (⟨c, r, m :: ms, d⟩ : Machine).hasDev = true := by
  simp_all [Machine.hasDev]

end Lookup

/-! ## LOG -/

namespace Machine

/-- LOG shows below `/mnt/log`. -/
def LogMounted (s : Machine) : Prop := ∀ q, s.mountOf ("mnt" :: "log" :: q) = some logMount

theorem logMounted_log (c : Card) (r : Files) (d : Path) :
    (⟨c, r, logMount :: baseMounts, d⟩ : Machine).LogMounted := fun q => by
  simp [mountOf, logMount]

theorem logMounted_latest (c : Card) (r : Files) (d : Path) :
    (⟨c, r, latestMount :: logMount :: baseMounts, d⟩ : Machine).LogMounted := fun q => by
  simp [mountOf, logMount, latestMount]

section LogMounted

variable {s : Machine} (h : s.LogMounted)
include h

theorem LogMounted.of_mounts {s' : Machine} (hm : s'.mounts = s.mounts) : s'.LogMounted :=
  fun q => by
    rw [← h q, mountOf, mountOf, hm]

theorem LogMounted.below (q : Path) : s.below ("mnt" :: "log" :: q) = q := by
  simp [Machine.below, h q, logMount]

/-- The paths below `/mnt/log` are the files of partition 4. -/
theorem LogMounted.get (q : Path) :
    s.get ("mnt" :: "log" :: q) = (s.card.files .p4).get q := by
  rw [Machine.get, h.below, treeOf, h q]
  rfl

/-- An entry below a directory of LOG comes with the directory. -/
theorem LogMounted.get_dropLast {q : Path} (hq : s.get ("mnt" :: "log" :: q) ≠ none) :
    (s.card.files .p4).get q.dropLast = some .dir := by
  rw [h.get] at hq
  unfold Card.files at hq ⊢
  cases hc : s.card.holds .p4 with
  | none => exact Files.closed_empty q (by simpa [hc] using hq)
  | some fs => exact fs.closed q (by simpa [hc] using hq)

theorem LogMounted.put (q : Path) (n : Node) :
    s.put ("mnt" :: "log" :: q) n = s.send [.put .p4 q n] := by
  simp [Machine.put, h q, h.below, logMount]

/-- `rm` below `/mnt/log` removes an entry that is no directory. -/
theorem LogMounted.unlink (q : Path) :
    s.unlink ("mnt" :: "log" :: q) = match (s.card.files .p4).get q with
      | none | some .dir => s.fail
      | some _ => s.send [.del .p4 q] := by
  rw [Machine.unlink, h.get]
  simp only [h q, h.below, logMount]
  rfl

end LogMounted

end Machine

/-! ## What reading commands depend on -/

namespace Machine

/-- The two machines show the same files and have the same working directory. -/
structure Alike (s s' : Machine) : Prop where
  tree : ∀ p, s'.treeOf p = s.treeOf p
  below : ∀ p, s'.below p = s.below p
  cwd : s'.cwd = s.cwd

namespace Alike

variable {s s' : Machine} (h : s.Alike s')
include h

theorem get (p : Path) : s'.get p = s.get p := by
  rw [Machine.get, Machine.get, h.tree, h.below]

theorem follow (n : ℕ) (p : Path) : s'.follow n p = s.follow n p := by
  induction n generalizing p with
  | zero => rfl
  | succ n ih =>
    unfold Machine.follow
    rw [h.get]
    split
    · exact ih _
    · rfl

theorem stat (p : Path) : s'.stat p = s.stat p := by
  unfold Machine.stat
  rw [h.follow, h.get]

theorem isThere : s'.isThere = s.isThere := by
  funext p
  rw [Machine.isThere, Machine.isThere, h.stat]

theorem read (p : Path) : s'.read p = s.read p := by
  unfold Machine.read
  rw [h.stat]

theorem names : s'.names = s.names := by
  funext p
  rw [Machine.names, Machine.names, h.tree, h.below]

theorem words (t : Text) : s'.words t = s.words t := by
  rw [Machine.words, Machine.words, h.names, h.isThere, h.cwd]

theorem found (dir : Path) (ending : Text) : s'.found dir ending = s.found dir ending := by
  rw [Machine.found, Machine.found, h.tree, h.below]

theorem test (odd : List Text → Bool) (ts : List Text) : s'.test odd ts = s.test odd ts := by
  have hw : s'.wordIsThere = s.wordIsThere := by
    funext t
    rw [wordIsThere, wordIsThere, h.isThere, h.cwd]
  rw [Machine.test, Machine.test, hw]

theorem md5sumCheck (md5 : Text → Text) (ts : List Text) :
    s'.md5sumCheck md5 ts = s.md5sumCheck md5 ts := by
  have hd : s'.digestOf md5 = s.digestOf md5 := by
    funext t
    rw [digestOf, digestOf, h.read, h.cwd]
  simp only [Machine.md5sumCheck, hd, h.read, h.cwd]

theorem members (untar : Text → Option (List (Path × Text))) (ts : List Text) :
    s'.members untar ts = s.members untar ts := by
  cases ts with
  | nil => rfl
  | cons t ts => simp only [Machine.members, h.read, h.cwd]

/-- Another working directory, in both machines. -/
theorem cd (d : Path) : Machine.Alike { s with cwd := d } { s' with cwd := d } :=
  ⟨h.tree, h.below, rfl⟩

end Alike

end Machine

theorem ready_alike (w : World) (c c' : Card) : (ready w c).Alike (ready w c') := by
  refine ⟨fun p => ?_, fun _ => rfl, rfl⟩
  have hm : (ready w c').mountOf p = (ready w c).mountOf p := rfl
  unfold Machine.treeOf
  rw [hm]
  cases h : (ready w c).mountOf p with
  | none => rfl
  | some m =>
    have hmem := List.mem_of_find?_eq_some h
    simp only [ready, baseMounts, List.mem_cons, List.not_mem_nil, or_false] at hmem
    rcases hmem with rfl | rfl | rfl <;> rfl

/-- With LOG mounted a machine shows the initramfs and the files of LOG. -/
theorem log_alike {c c' : Card} (r : Files) (d : Path) (hc : c'.files .p4 = c.files .p4) :
    Machine.Alike ⟨c, r, logMount :: baseMounts, d⟩ ⟨c', r, logMount :: baseMounts, d⟩ := by
  refine ⟨fun p => ?_, fun _ => rfl, rfl⟩
  have hm : (⟨c', r, logMount :: baseMounts, d⟩ : Machine).mountOf p =
      (⟨c, r, logMount :: baseMounts, d⟩ : Machine).mountOf p := rfl
  unfold Machine.treeOf
  rw [hm]
  cases h : (⟨c, r, logMount :: baseMounts, d⟩ : Machine).mountOf p with
  | none => rfl
  | some m =>
    have hmem := List.mem_of_find?_eq_some h
    simp only [logMount, baseMounts, List.mem_cons, List.not_mem_nil, or_false] at hmem
    rcases hmem with rfl | rfl | rfl | rfl
    · exact hc
    all_goals rfl

/-! ## Rules for the commands -/

/-- The machine after writes to its card. -/
def Machine.wrote (s : Machine) (ws : List (List Write)) : Machine :=
  { s with card := After Card.apply s.card ws }

@[simp] theorem Machine.wrote_nil (s : Machine) : s.wrote [] = s := rfl

section Rules

variable {w : World} {x : Circumstances} {s s' : Machine} {c : Cmd} {α : Type} {a : α} {e : Exit}
  {ws : List (List Write)}

theorem sh_returns {r : Reply} {v : List Write} {ram : Files} {ms : List Mount} {d : Path}
    (heff : act w x true s c = ⟨r, v, ram, ms, d⟩) {f : Unit → Script α}
    (h : (f ()).Returns (step w x) (writes w x) ⟨v.foldl Card.apply s.card, ram, ms, d⟩ ws a s') :
    (sh c >>= f).Returns (step w x) (writes w x) s (group v ws) a s' := by
  constructor <;> simp [step, writes, heff, h.schedule, h.run]

theorem sh_exits {r : Reply} {v : List Write} {ram : Files} {ms : List Mount} {d : Path}
    (heff : act w x true s c = ⟨r, v, ram, ms, d⟩) {f : Unit → Script α}
    (h : (f ()).Exits (step w x) (writes w x) ⟨v.foldl Card.apply s.card, ram, ms, d⟩ ws e) :
    (sh c >>= f).Exits (step w x) (writes w x) s (group v ws) e := by
  constructor <;> simp [step, writes, heff, h.schedule, h.run]

theorem quiet_returns {r : Reply} {ram : Files} {ms : List Mount} {d : Path}
    (heff : act w x true s c = ⟨r, [], ram, ms, d⟩) {f : Unit → Script α}
    (h : (f ()).Returns (step w x) (writes w x) ⟨s.card, ram, ms, d⟩ ws a s') :
    (sh c >>= f).Returns (step w x) (writes w x) s ws a s' :=
  sh_returns heff h

theorem quiet_exits {r : Reply} {ram : Files} {ms : List Mount} {d : Path}
    (heff : act w x true s c = ⟨r, [], ram, ms, d⟩) {f : Unit → Script α}
    (h : (f ()).Exits (step w x) (writes w x) ⟨s.card, ram, ms, d⟩ ws e) :
    (sh c >>= f).Exits (step w x) (writes w x) s ws e :=
  sh_exits heff h

theorem idle_returns {r : Reply} (heff : act w x true s c = s.answer r) {f : Unit → Script α}
    (h : (f ()).Returns (step w x) (writes w x) s ws a s') :
    (sh c >>= f).Returns (step w x) (writes w x) s ws a s' :=
  sh_returns heff h

theorem idle_exits {r : Reply} (heff : act w x true s c = s.answer r) {f : Unit → Script α}
    (h : (f ()).Exits (step w x) (writes w x) s ws e) :
    (sh c >>= f).Exits (step w x) (writes w x) s ws e :=
  sh_exits heff h

theorem sent_exits {v : Write} {vs : List Write} (heff : act w x true s c = s.send (v :: vs))
    {f : Unit → Script α} (h : (f ()).Exits (step w x) (writes w x) (s.wrote [v :: vs]) ws e) :
    (sh c >>= f).Exits (step w x) (writes w x) s ((v :: vs) :: ws) e :=
  sh_exits heff h

theorem out_returns {o : List Text} (heff : act w x true s c = s.answer { out := o })
    {f : List Text → Script α} (h : (f o).Returns (step w x) (writes w x) s ws a s') :
    (out c >>= f).Returns (step w x) (writes w x) s ws a s' := by
  constructor <;> simp [step, writes, heff, Machine.answer_reply, h.schedule, h.run]

theorem out_exits {o : List Text} (heff : act w x true s c = s.answer { out := o })
    {f : List Text → Script α} (h : (f o).Exits (step w x) (writes w x) s ws e) :
    (out c >>= f).Exits (step w x) (writes w x) s ws e := by
  constructor <;> simp [step, writes, heff, Machine.answer_reply, h.schedule, h.run]

theorem cond_returns {b : Bool} (heff : act w x true s c = s.check b) {f : Bool → Script α}
    (h : (f b).Returns (step w x) (writes w x) s ws a s') :
    (cond c >>= f).Returns (step w x) (writes w x) s ws a s' := by
  constructor <;> simp [step, writes, heff, Machine.check_beq, h.schedule, h.run]

theorem cond_exits {b : Bool} (heff : act w x true s c = s.check b) {f : Bool → Script α}
    (h : (f b).Exits (step w x) (writes w x) s ws e) :
    (cond c >>= f).Exits (step w x) (writes w x) s ws e := by
  constructor <;> simp [step, writes, heff, Machine.check_beq, h.schedule, h.run]

theorem isThere_returns {p : Path} {b : Bool} (hb : s.isThere p = b) {f : Bool → Script α}
    (h : (f b).Returns (step w x) (writes w x) s ws a s') :
    (cond (.isThere p) >>= f).Returns (step w x) (writes w x) s ws a s' :=
  cond_returns (hb ▸ rfl) h

theorem isThere_exits {p : Path} {b : Bool} (hb : s.isThere p = b) {f : Bool → Script α}
    (h : (f b).Exits (step w x) (writes w x) s ws e) :
    (cond (.isThere p) >>= f).Exits (step w x) (writes w x) s ws e :=
  cond_exits (hb ▸ rfl) h

theorem cond_last {b : Bool} (heff : act w x true s c = s.check b) :
    (cond c : Script Bool).Returns (step w x) (writes w x) s [] b s := by
  constructor <;> simp [cond, step, writes, heff, Machine.check_beq]

end Rules

/-! ## The beginning of a boot -/

section Begin

variable (w : World) (x : Circumstances) (c : Card)

theorem earlySetup_returns :
    earlySetup.Returns (step w x) (writes w x) (powerOn w c) [] () (ready w c) := by
  have hproc := w.initramfs.dirs "proc" (by simp)
  have hsys := w.initramfs.dirs "sys" (by simp)
  have hdev := w.initramfs.dirs "dev" (by simp)
  constructor <;>
    simp [earlySetup, sh, step, writes, act, powerOn, ready, World.earlyRam, baseMounts,
      Machine.mountOf, Machine.answer, Machine.mountOn, Machine.stat_dir,
      Machine.get, Machine.treeOf, Machine.below, Files.mkdirs_of_dir hproc,
      Files.mkdirs_of_dir hsys, hproc, hsys, hdev]

/-- The text in which `read_args` looks for arguments. -/
def World.argsText : Text :=
  if w.environment .cmdline = [] then w.cmdline else w.environment .cmdline

/-- The arguments of the script. -/
def args : Args :=
  ((ready w c).words w.argsText).foldl readArg
    ⟨w.environment .rootDevice, w.environment .forceFactoryReset⟩

theorem readArgs_returns :
    readArgs.Returns (step w x) (writes w x) (ready w c) [] (args w c) (ready w c) := by
  by_cases hset : w.environment .cmdline = [] <;> constructor <;>
    simp [readArgs, step, writes, act, Machine.answer, args, World.argsText, ready, hset]

/-- The kernel command line asks for a factory reset. -/
def forced : Bool :=
  (ready w c).test w.odd
    ((ready w c).words (args w c).forceFactoryReset ++ ["==".toList, "1".toList])

theorem args_eq (c' : Card) : args w c' = args w c := by
  rw [args, args, (ready_alike w c c').words]

theorem forced_eq (c' : Card) : forced w c' = forced w c := by
  rw [forced, forced, args_eq w c c', (ready_alike w c c').words, (ready_alike w c c').test]

end Begin

end Meta3dr
