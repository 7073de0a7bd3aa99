import Meta3dr.Init.Card
import Meta3dr.Program.Schedule
import Meta3dr.Shell.Checksum

/-!
# The machine that runs `init`

During a boot the machine holds the card, the tree of the initramfs, the mounted file systems and
the working directory. A command of the script reads this state, replies with an exit status and
the lines it prints, changes the tree, the mounts or the directory, and sends writes to the card.
The card changes through these writes only.

What lies outside the repository is a parameter: the initramfs image, the kernel command line,
the digests of `md5sum`, the format of archives and images, and the expressions that `[` leaves
open. The circumstances of a boot say which external commands fail.

## Main definitions

* `World`, `Circumstances`: the parameters of the model and of one boot
* `Machine`: the state of a boot
* `Cmd`, `act`: the commands of the script, and what they do
* `step`: one command

## Main results

* `step_card`: the card changes through the writes of a command
-/

namespace Meta3dr

open Shell Storage Program

/-! ## Parameters -/

/-- The tree of the initramfs image: the directories `init` relies on are there, and `/mnt` is
empty (`init` makes the mount points itself). -/
structure Initramfs where
  files : Files
  dirs : ∀ d ∈ ["dev", "mnt", "proc", "sys"], files.get [d] = some .dir
  mntEmpty : ∀ p, ["mnt"] <+: p → p ≠ ["mnt"] → files.get p = none

/-- The variables that the environment of the script can set before the script does; the kernel
makes one of every word `name=value` on its command line that it does not know itself. -/
inductive Variable
  | cmdline | rootDevice | forceFactoryReset

/-- The surroundings of the script. A variable that is not set is empty. -/
structure World where
  initramfs : Initramfs
  cmdline : Text
  environment : Variable → Text := fun _ => []
  md5 : Text → Text
  untar : Text → Option (List (Path × Text))
  unsquash : Text → Files
  odd : List Text → Bool

/-- The circumstances of one boot: which external commands fail. A failed `mkfs` leaves the given
content, a failed `tar` writes only what is kept, a failed `dd` only the first bytes, and only the
mount of LATEST can fail by itself. -/
structure Circumstances where
  mkfsFails : Part → Option (Option FileSystem) := fun _ => none
  latestMountFails : Bool := false
  tarKeeps : List (Path × Text) → List (Path × Text) := id
  ddKeeps : Option ℕ := none

/-! ## The state of a boot -/

/-- Where the files below a mount point come from. -/
inductive Source
  | part (p : Part)
  | pseudo (name : String)
  | image (files : Files)
  | union (upper : Option Part) (lower : Files)

/-- A mounted file system. -/
structure Mount where
  point : Path
  source : Source
  readOnly : Bool := false

/-- The mount shows a partition. -/
def Mount.isPart (p : Part) (m : Mount) : Bool :=
  match m.source with
  | .part q => q == p
  | _ => false

/-- The state of a boot: the card, the tree of the initramfs, the mounts with the last one first,
and the working directory. -/
structure Machine where
  card : Card
  ram : Files
  mounts : List Mount := []
  cwd : Path := []

namespace Machine

variable (s : Machine)

/-- The mounted file system a path is on; none for the initramfs. -/
def mountOf (p : Path) : Option Mount := s.mounts.find? fun m => m.point.isPrefixOf p

/-- The tree a path is in. -/
def treeOf (p : Path) : Files :=
  match s.mountOf p with
  | none => s.ram
  | some m => match m.source with
    | .part q => s.card.files q
    | .pseudo _ => ∅
    | .image files => files
    | .union upper lower => (upper.elim ∅ s.card.files) ∪ lower

/-- The path below the mount point. -/
def below (p : Path) : Path :=
  match s.mountOf p with
  | none => p
  | some m => p.drop m.point.length

/-- The entry at a path. -/
def get (p : Path) : Option Node := (s.treeOf p).get (s.below p)

/-- The path at the end of the links in the last component; the kernel follows at most 40. -/
def follow : ℕ → Path → Path
  | 0, p => p
  | n + 1, p => match s.get p with
    | some (.link t) => follow n (pathOf p.dropLast t)
    | _ => p

/-- The entry a path denotes when links are followed. -/
def stat (p : Path) : Option Node :=
  match s.get (s.follow 40 p) with
  | some (.link _) => none
  | n => n

/-- `[ -e p ]`. -/
def isThere (p : Path) : Bool := (s.stat p).isSome

/-- The content of a regular file. -/
def read (p : Path) : Option Text :=
  match s.stat p with
  | some (.file t) => some t
  | _ => none

/-- The bytes of a file: no more than its partition has room for. -/
def bytes (p : Path) (t : Text) : Text :=
  match s.mountOf p with
  | some ⟨_, .part q, _⟩ => t.take (s.card.room q)
  | _ => t

/-- The names in a directory. -/
def names (dir : Path) : List String := (s.treeOf dir).names (s.below dir)

/-- The words of an unquoted expansion. -/
def words (t : Text) : List Text := expand s.names s.isThere s.cwd t

/-- The devtmpfs is mounted, so that published nodes show. -/
def hasDev : Bool := s.mounts.any fun m => match m.source with
  | .pseudo name => name == "devtmpfs"
  | _ => false

/-- The node of a partition is there, when the kernel has published the card. -/
def hasNode (published : Bool) (p : Part) : Bool :=
  s.hasDev && published && (s.card.table.entry p).isSome

end Machine

/-! ## Commands -/

/-- Options of `mkdir`; `-f` is none that it knows. -/
inductive MkdirOption
  | plain | parents | f

/-- The commands of the script. Paths that the script spells out are given as paths, and what it
expands is given as words. `device` covers the commands that only talk to the serial port, to
the LED or to the module loader. -/
inductive Cmd
  | device (line : String)
  | mkdir (opt : MkdirOption) (p : Path)
  | mountPseudo (type : String) (dir : Path)
  | mountPart (p : Part) (dir : Path)
  | mountRoot (device : List Text) (dir : Path)
  | mountImage (images : List Text) (dir : Path)
  | mountUnion (upper lower dir : Path)
  | moveMount (src dst : Path)
  | umount (dirs : List Path)
  | umountPart (p : Part)
  | variable (v : Variable)
  | catCmdline
  | expand (t : Text)
  | nodeExists (p : Part)
  | isThere (p : Path)
  | test (operands : List Text)
  | partedRm (p : Part)
  | partedMkpart (start : ℕ) (stop : Option ℕ)
  | mkfs (p : Part) (kind : FsKind) (label : String)
  | fsck (p : Part) (kind : FsKind)
  | touch (p : Path)
  | append (line : String) (p : Path)
  | rm (force : Bool) (p : Path)
  | rmWords (ws : List Text)
  | find (dir : Path) (ending : String)
  | md5sumCheck (ws : List Text)
  | tar (ws : List Text) (dir : Path)
  | dd (src : Path)
  | cd (p : Path)
  | sync

/-- The exit status of a command and the lines it prints. -/
structure Reply where
  status : ℕ := 0
  out : List Text := []

/-- What a command does: its reply, its writes to the card, and the rest of the new state. -/
structure Effect where
  reply : Reply
  writes : List Write
  ram : Files
  mounts : List Mount
  cwd : Path

namespace Machine

variable (s : Machine)

/-- A command that only replies. -/
def answer (r : Reply) : Effect := ⟨r, [], s.ram, s.mounts, s.cwd⟩

/-- A command that fails without effect. -/
def fail : Effect := s.answer { status := 1 }

/-- A test: exit status 0 when it holds. -/
def check (b : Bool) : Effect := s.answer { status := if b then 0 else 1 }

/-- A command that succeeds with writes to the card. -/
def send (ws : List Write) : Effect := ⟨{}, ws, s.ram, s.mounts, s.cwd⟩

/-- Write an entry at a path: into the initramfs, or through a writable mount. -/
def put (p : Path) (n : Node) : Effect :=
  match s.mountOf p with
  | none => ⟨{}, [], s.ram.insert p n, s.mounts, s.cwd⟩
  | some m =>
    if m.readOnly then s.fail
    else match m.source with
      | .part q => s.send [.put q (s.below p) n]
      | .union (some q) _ => s.send [.put q (s.below p) n]
      | _ => s.fail

/-- Remove an entry that is not a directory. -/
def unlink (p : Path) : Effect :=
  match s.get p with
  | none | some .dir => s.fail
  | some _ =>
    match s.mountOf p with
    | none => ⟨{}, [], s.ram.erase p, s.mounts, s.cwd⟩
    | some m =>
      if m.readOnly then s.fail
      else match m.source with
        | .part q => s.send [.del q (s.below p)]
        | _ => s.fail

/-- Write a text at the end of a file, which is made when it is missing. -/
def appendTo (p : Path) (t : Text) : Effect :=
  let q := s.follow 40 p
  match s.get q with
  | some (.file old) => s.put q (.file (old ++ t))
  | none => if s.stat q.dropLast = some .dir then s.put q (.file t) else s.fail
  | _ => s.fail

/-- Mount a source on an existing directory. -/
def mountOn (src : Source) (dir : Path) (readOnly : Bool) (ws : List Write) : Effect :=
  if s.stat dir = some .dir then ⟨{}, ws, s.ram, ⟨dir, src, readOnly⟩ :: s.mounts, s.cwd⟩
  else s.fail

/-- The writes that flush a source when it is unmounted. -/
def flushOf : Source → List Write
  | .part p => [.flush p]
  | _ => []

/-- Unmount the last mount with a property; a mount with the working directory in it is busy. -/
def umountWhere (b : Mount → Bool) : Effect :=
  match s.mounts.find? b with
  | none => s.fail
  | some m =>
    if m.point.isPrefixOf s.cwd then s.fail
    else ⟨{}, flushOf m.source, s.ram, s.mounts.eraseP b, s.cwd⟩

/-- The machine after an effect. -/
def after (e : Effect) : Machine where
  card := e.writes.foldl Card.apply s.card
  ram := e.ram
  mounts := e.mounts
  cwd := e.cwd

section Effects

variable (r : Reply) (b : Bool) (ws : List Write)

@[simp] theorem answer_reply : (s.answer r).reply = r := rfl
@[simp] theorem answer_writes : (s.answer r).writes = [] := rfl
@[simp] theorem after_answer : s.after (s.answer r) = s := rfl
@[simp] theorem fail_reply : s.fail.reply = { status := 1 } := rfl
@[simp] theorem fail_writes : s.fail.writes = [] := rfl
@[simp] theorem after_fail : s.after s.fail = s := rfl
@[simp] theorem check_status : (s.check b).reply.status = 0 ↔ b = true := by simp [check, answer]
theorem check_beq : ((s.check b).reply.status == 0) = b := by cases b <;> rfl
@[simp] theorem check_writes : (s.check b).writes = [] := rfl
@[simp] theorem after_check : s.after (s.check b) = s := rfl
@[simp] theorem send_reply : (s.send ws).reply = {} := rfl
@[simp] theorem send_writes : (s.send ws).writes = ws := rfl

@[simp] theorem after_send :
    s.after (s.send ws) = { s with card := ws.foldl Card.apply s.card } := rfl

@[simp] theorem after_mk (ram : Files) (mounts : List Mount) (cwd : Path) :
    s.after ⟨r, ws, ram, mounts, cwd⟩ = ⟨ws.foldl Card.apply s.card, ram, mounts, cwd⟩ := rfl

end Effects

/-- The digest of a file named in a checksum list. -/
def digestOf (md5 : Text → Text) (name : Text) : Option Text :=
  (s.read (pathOf s.cwd name)).map md5

/-- `-e` of `[` on a word. -/
def wordIsThere (t : Text) : Bool := s.isThere (pathOf s.cwd t)

/-- `[` on its operands. -/
def test (odd : List Text → Bool) (operands : List Text) : Bool :=
  bracket s.wordIsThere odd operands

/-- The lines `find dir -type f -name "*ending"` prints. -/
def found (dir : Path) (ending : Text) : List Text :=
  lines (unlines (((s.treeOf dir).find (s.below dir) ending).map
    fun p => pathText (dir ++ p.drop (s.below dir).length)))

/-- The lines `md5sum -c` prints for checksum lists. -/
def md5sumCheck (md5 : Text → Text) (ws : List Text) : List Text :=
  ws.flatMap fun t => ((s.read (pathOf s.cwd t)).map (checkLines (s.digestOf md5))).getD []

/-- An effect and, in the machine after it, another one. -/
def andThen (e : Effect) (f : Machine → Effect) : Effect :=
  let e' := f (s.after e)
  ⟨e'.reply, e.writes ++ e'.writes, e'.ram, e'.mounts, e'.cwd⟩

/-- `umount` of directories. -/
def umounts : List Path → Machine → Effect
  | [], s => s.answer {}
  | [dir], s => s.umountWhere (·.point = dir)
  | dir :: dirs, s => s.andThen (s.umountWhere (·.point = dir)) (umounts dirs)

/-- `rm` of words. -/
def rmWords : List Text → Machine → Effect
  | [], s => s.answer {}
  | [t], s => s.unlink (pathOf s.cwd t)
  | t :: ts, s => s.andThen (s.unlink (pathOf s.cwd t)) (rmWords ts)

/-- The members of an archive that `tar -xf` is asked for: all of them, or the named ones. -/
def members (untar : Text → Option (List (Path × Text))) : List Text → Option (List (Path × Text))
  | [] => none
  | archive :: only => ((s.read (pathOf s.cwd archive)).bind untar).map fun ms =>
      ms.filter fun m => only.isEmpty || only.any fun o => pathOf [] o == m.1

/-- Write members of an archive below a directory. -/
def unpack (ms : List (Path × Text)) (dir : Path) : Effect :=
  if s.stat dir = some .dir then
    match s.mountOf dir with
    | none => ⟨{}, [], s.ram.extract (ms.map fun m => (dir ++ m.1, m.2)), s.mounts, s.cwd⟩
    | some ⟨_, .part p, false⟩ => s.send [.extract p (s.below dir) ms]
    | some _ => s.fail
  else s.fail

end Machine

/-- `/dev/mmcblk0pN` as a word. -/
def deviceWord : Part → Text
  | .p1 => "/dev/mmcblk0p1".toList
  | .p2 => "/dev/mmcblk0p2".toList
  | .p3 => "/dev/mmcblk0p3".toList
  | .p4 => "/dev/mmcblk0p4".toList

/-- The partition a word names. -/
def partOfWord (w : Text) : Option Part := Part.numbers.find? fun p => deviceWord p == w

/-- A file system fresh from `mkfs`. -/
def fresh (kind : FsKind) (label : String) : FileSystem := { kind, label }

section Act

variable (w : World) (x : Circumstances) (published : Bool) (s : Machine)

/-- Mount a partition; a missing node, a broken file system or a missing directory makes it fail. -/
def mountPart (p : Part) (dir : Path) (readOnly : Bool) : Effect :=
  if s.hasNode published p && s.card.mountable p then
    s.mountOn (.part p) dir readOnly (if readOnly then [] else [.mount p])
  else s.fail

/-- What a command does, when the kernel has or has not published the nodes of the card. -/
def act : Cmd → Effect
  | .device _ => s.answer {}
  | .mkdir .f _ => s.fail
  | .mkdir .plain p =>
    if s.get p = none ∧ s.stat p.dropLast = some .dir then s.put p .dir else s.fail
  | .mkdir .parents p =>
    match s.mountOf p with
    | none => ⟨{}, [], s.ram.mkdirs p, s.mounts, s.cwd⟩
    | some ⟨_, .union (some q) _, _⟩ =>
      if (s.treeOf p).missingDirs (s.below p) = [] then s.answer {}
      else s.send [.mkdirs q (s.below p)]
    | some _ => s.fail
  | .mountPseudo type dir => s.mountOn (.pseudo type) dir false []
  | .mountPart p dir =>
    if p == .p2 && x.latestMountFails then s.fail else mountPart published s p dir false
  | .mountRoot device dir =>
    match device with
    | [d] => match partOfWord d with
      | some p => mountPart published s p dir true
      | none => s.fail
    | _ => s.fail
  | .mountImage images dir =>
    match images with
    | [i] => match s.read (pathOf s.cwd i) with
      | some t => s.mountOn (.image (w.unsquash t)) dir true []
      | none => s.fail
    | _ => s.fail
  | .mountUnion upper lower dir =>
    let rw := match s.mounts.find? (·.point = upper) with
      | some ⟨_, .part p, false⟩ => some p
      | _ => none
    let ro := match s.mounts.find? (·.point = lower) with
      | some ⟨_, .image files, _⟩ => files
      | _ => ∅
    s.mountOn (.union rw ro) dir false []
  | .moveMount src dst =>
    if s.mounts.any (·.point = src) ∧ s.get dst = some .dir then
      ⟨{}, [], s.ram, s.mounts.map fun m => if m.point = src then { m with point := dst } else m,
        s.cwd⟩
    else s.fail
  | .umount dirs => Machine.umounts dirs s
  | .umountPart p => s.umountWhere (·.isPart p)
  | .variable v => s.answer { out := [w.environment v] }
  | .catCmdline => s.answer { out := [w.cmdline] }
  | .expand t => s.answer { out := s.words t }
  | .nodeExists p => s.check (s.hasNode published p)
  | .isThere p => s.check (s.isThere p)
  | .test operands => s.check (s.test w.odd operands)
  | .partedRm p => if s.hasDev && published then s.send [.rm p] else s.fail
  | .partedMkpart start stop =>
    if s.hasDev && published then s.send [.mkpart start stop] else s.fail
  | .mkfs p kind label =>
    if s.hasDev && published then
      s.send [.format p ((x.mkfsFails p).getD (some (fresh kind label)))]
    else s.fail
  | .fsck p kind =>
    if s.hasDev && published then
      ⟨{ status := s.card.fsckStatus p kind }, [.fsck p kind], s.ram, s.mounts, s.cwd⟩
    else s.answer { status := 8 }
  | .touch p => if s.isThere p then s.answer {} else s.appendTo p []
  | .append line p => s.appendTo p (line.toList ++ ['\n'])
  | .rm _ p => s.unlink p
  | .rmWords ws => Machine.rmWords ws s
  | .find dir ending => s.answer { out := s.found dir ending.toList }
  | .md5sumCheck ws => s.answer { out := s.md5sumCheck w.md5 ws }
  | .tar ws dir =>
    match s.members w.untar ws with
    | some ms => s.unpack (x.tarKeeps ms) dir
    | none => s.fail
  | .dd src =>
    match s.read src with
    | some t =>
      if s.hasDev && published then s.send [.flash (x.ddKeeps.elim id List.take (s.bytes src t))]
      else s.fail
    | none => s.fail
  | .cd p => if s.stat p = some .dir then ⟨{}, [], s.ram, s.mounts, p⟩ else s.fail
  | .sync => s.send [.sync]

-- Its equations are made here, once for all modules that compute with it.
attribute [local simp] act

theorem act_sync : act w x published s .sync = s.send [.sync] := by simp

/-- One command, with the nodes of the card there: its reply and the machine after it. -/
def step (c : Cmd) : Reply × Machine :=
  ((act w x true s c).reply, s.after (act w x true s c))

/-- The writes of one command. -/
def writes (c : Cmd) : List Write := (act w x true s c).writes

/-- The card changes through the writes of a command. -/
theorem step_card (c : Cmd) :
    (step w x s c).2.card = (writes w x s c).foldl Card.apply s.card := rfl

end Act

end Meta3dr
