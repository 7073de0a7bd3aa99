import Meta3dr.Aufs.Lower
import Meta3dr.Aufs.Readdir
import Meta3dr.Program.Trial

/-!
# Operations of the union

An entry of the union is made, removed or written through the branches: a directory or a file of a
read-only branch is first copied up, under a temporary name; what a lower branch has is hidden by a
whiteout; and where a later step fails, the earlier ones are taken back. Any step can fail.

## Main definitions

* `Mount`, `Cmd`, `step`: a mount, the commands of the operations, and what they do
* `auCpupSimple`, `auCpupDirs`: an entry copied up, and the directories above it
* `lockHdirCreateWh`, `lockHdirLkupWh`: the branch of an operation, and its whiteout
* `aufsUnlink`, `aufsRmdir`, `addSimple`, `aufsMkdir`, `aufsWrite`: the operations
* `Syscall`, `perform`: a system call, with the lookup of its path
-/

namespace Meta3dr.Aufs

open Shell Program

/-! ## Mounts -/

/-- A mount: its branches, the counter of temporary names, and the faults that are still to come,
where `none` is a step that goes well. -/
structure Mount where
  branches : List Branch
  cnt : ℕ := 0
  faults : List (Option Errno) := []

/-- The commands: an operation on a branch, another step that can fail, a look at the branches, and
a tick of the counter. -/
inductive Cmd
  | lower (i : ℕ) (op : LowerOp)
  | check
  | read
  | tick

inductive Reply
  | done
  | branches (brs : List Branch)
  | count (c : ℕ)
  | fail (e : Errno)

/-- A step that fails where a fault is due. -/
def Mount.fault (m : Mount) (k : Mount → Reply × Mount) : Reply × Mount :=
  match m.faults with
  | [] => k m
  | none :: fs => k { m with faults := fs }
  | some e :: fs => (.fail e, { m with faults := fs })

/-- An operation on a branch, which has to be writable. -/
def Mount.lower (m : Mount) (i : ℕ) (op : LowerOp) : Reply × Mount :=
  match m.branches[i]? with
  | none => (.fail .einval, m)
  | some br =>
    if auBrWritable br then
      match op.exec br.files with
      | .error e => (.fail e, m)
      | .ok fs => (.done, { m with branches := m.branches.set i { br with files := fs } })
    else (.fail .erofs, m)

def step (m : Mount) : Cmd → Reply × Mount
  | .lower i op => m.fault fun m => m.lower i op
  | .check => m.fault fun m => (.done, m)
  | .read => (.branches m.branches, m)
  | .tick => (.count m.cnt, { m with cnt := (m.cnt + 1) % 2 ^ 16 })

/-- How the kernel stops in an operation: a `BUG()`, or a pointer that leads nowhere. -/
inductive Halt
  | bug | oops
  deriving DecidableEq

/-- Programs over a mount. -/
abbrev Exec (α : Type) := Trial Cmd Reply Halt Errno α

def Reply.unit : Reply → Except Errno Unit
  | .fail e => .error e
  | _ => .ok ()

def lower (i : ℕ) (op : LowerOp) : Exec Unit := Trial.call (.lower i op) Reply.unit

/-- A step that can fail and changes no branch: a lock, an attribute, an open file. -/
def check : Exec Unit := Trial.call .check Reply.unit

def read : Exec (List Branch) :=
  Trial.call .read fun
    | .branches brs => .ok brs
    | _ => .ok []

def tick : Exec ℕ :=
  Trial.call .tick fun
    | .count c => .ok c
    | _ => .ok 0

/-- A value or an error that the dentries already tell. -/
def known {α : Type} : Except Errno α → Exec α
  | .ok a => pure a
  | .error e => throw e

/-- The dentry of a path. -/
def dentryOf (p : Path) : Exec Dentry := do
  let brs ← read
  known (resolve brs p)

/-- `d_inode` of a lower dentry. -/
def dInode (i : ℕ) (p : Path) : Exec (Option Node) := do
  let brs ← read
  return brs[i]?.bind fun br => br.files.get p

/-- `vfsub_lkup_one`. -/
def lkupOne (i : ℕ) (p : Path) : Exec (Option Node) := do
  check
  dInode i p

/-- The branch has the entry, `au_h_dptr`. -/
def Dentry.hDptr (d : Dentry) (i : ℕ) : Bool := i ∈ d.lower.map Prod.fst

/-- `au_br_rdonly`, the other way round. -/
def writable (brs : List Branch) (i : ℕ) : Bool := brs[i]?.any auBrWritable

/-! ## Whiteouts and temporary names -/

/-- Four hexadecimal digits, `%04x` of a short. -/
def hex4 (c : ℕ) : String :=
  .ofList [(c / 4096 % 16).digitChar, (c / 256 % 16).digitChar, (c / 16 % 16).digitChar,
    (c % 16).digitChar]

/-- A temporary name: two prefixes, the name and the counter. -/
def whtmpName (name : String) (c : ℕ) : String := whName (whName (name ++ "." ++ hex4 c))

section Whout

variable (i : ℕ) (dir : Path) (name : String)

/-- The tries of `au_whtmp_lkup`; after the last one it is a `BUG()`. -/
def whtmpTry : ℕ → Exec String
  | 0 => Trial.halt .bug
  | k + 1 => do
    let c ← tick
    let x ← lkupOne i (dir ++ [whtmpName name c])
    if x.isNone then
      return whtmpName name c
    whtmpTry k

/-- `au_whtmp_lkup`: a temporary name that no entry has. -/
def auWhtmpLkup : Exec String := do
  if maxNameLen < name.utf8ByteSize then
    throw .enametoolong
  whtmpTry i dir name 3

/-- `link_or_create_wh`. -/
def linkOrCreateWh (p : Path) : Exec Unit := lower i (.create p (.file []))

/-- `au_wh_lkup`. -/
def auWhLkup : Exec (Option Node) := lkupOne i (dir ++ [whName name])

/-- `au_wh_create`. -/
def auWhCreate : Exec Unit := do
  let wh ← auWhLkup i dir name
  if wh.isNone then
    linkOrCreateWh i (dir ++ [whName name])

/-- `au_wh_unlink_dentry`. -/
def auWhUnlinkDentry : Exec Unit := lower i (.unlink (dir ++ [whName name]))

/-- `do_diropq` that makes the marker of a directory. -/
def auDiropqCreate (p : Path) : Exec Unit := do
  let _ ← lkupOne i (p ++ [diropqName])
  linkOrCreateWh i (p ++ [diropqName])

/-- `do_diropq` that removes it from a directory whose dentry has no inode yet, as in the revert of
`aufs_mkdir`: past the lookup it reads the branch's inode out of this missing one. -/
def auDiropqRemove (p : Path) : Exec Unit := do
  let _ ← lkupOne i (p ++ [diropqName])
  Trial.halt .oops

/-- `au_whtmp_ren`: the entry gets a temporary name. -/
def auWhtmpRen : Exec String := do
  let tmp ← auWhtmpLkup i dir name
  lower i (.rename (dir ++ [name]) (dir ++ [tmp]))
  return tmp

/-- `unlink_wh_name`. -/
def unlinkWhName (p : Path) (name : String) : Exec Unit := do
  let x ← lkupOne i (p ++ [whName name])
  if x.any (kind · = .reg) then
    lower i (.unlink (p ++ [whName name]))

/-- `del_wh_children`: the whiteouts of a directory in this branch are removed. -/
def delWhChildren (p : Path) (whlist : List (String × ℕ)) : Exec Unit :=
  (whlist.filter (·.2 = i)).forM fun x => unlinkWhName i p x.1

/-- `au_whtmp_rmdir`. -/
def auWhtmpRmdir (p : Path) (whlist : List (String × ℕ)) : Exec Unit := do
  delWhChildren i p whlist
  lower i (.rmdir p)

end Whout

/-! ## Copy-up -/

/-- `au_lkup_neg`: the name has to be free. -/
def auLkupNeg (i : ℕ) (dir : Path) (name : String) : Exec Unit := do
  let x ← lkupOne i (dir ++ [name])
  if x.isSome then
    throw .eio

/-- `cpup_entry`: an entry of the same type, and the contents of a file. -/
def cpupEntry (bdst : ℕ) (dst : Path) : Node → Exec Unit
  | .file t => do
    lower bdst (.create dst (.file []))
    if t ≠ [] then
      check
      check
      lower bdst (.write dst t)
      check
  | .dir => lower bdst (.create dst .dir)
  | .link t => do
    check
    lower bdst (.create dst (.link t))
  | .special => lower bdst (.create dst .special)

section Cpup

variable (bdst : ℕ) (dir : Path) (name : String)

/-- `au_do_ren_after_cpup`. -/
def auDoRenAfterCpup (tmp : String) : Exec Unit := do
  auLkupNeg bdst dir name
  lower bdst (.rename (dir ++ [tmp]) (dir ++ [name]))

/-- `au_cpup_single` under a temporary name; a broken entry is removed. -/
def auCpupSingle (tmp : String) (x : Node) : Exec Unit := do
  let r ← Trial.attempt do
    cpupEntry bdst (dir ++ [tmp]) x
    check
    if kind x = .reg then
      check
    auDoRenAfterCpup bdst dir name tmp
  match r with
  | .ok () => return
  | .error e =>
    let there ← dInode bdst (dir ++ [tmp])
    if there.isSome then
      let r ← Trial.attempt (lower bdst
        (if x = .dir then .rmdir (dir ++ [tmp]) else .unlink (dir ++ [tmp])))
      if let .error _ := r then
        throw .eio
    throw e

/-- `au_cpup_simple`. -/
def auCpupSimple (x : Node) : Exec Unit := do
  let tmp ← auWhtmpLkup bdst dir name
  auCpupSingle bdst dir name tmp x

/-- `au_sio_cpup_simple`: the source is in the first branch below; past the last one there is no
dentry to copy. -/
def auSioCpupSimple (d : Dentry) : Exec Unit :=
  match d.lower.find? fun x => bdst < x.1 with
  | some x => auCpupSimple bdst dir name x.2
  | none => Trial.halt .oops

/-- The loop of `au_cp_dirs`: the topmost directory that the branch has not is copied first. -/
def auCpDirs : Path → Path → Exec Unit
  | _, [] => return
  | pre, n :: rest => do
    let d ← dentryOf (pre ++ [n])
    if !d.hDptr bdst then
      check
      auSioCpupSimple bdst pre n d
    auCpDirs (pre ++ [n]) rest

/-- `au_cpup_dirs` of the directories down to this one. -/
def auCpupDirs : Exec Unit := auCpDirs bdst [] dir

end Cpup

/-! ## Policies -/

/-- `au_wbr_bu`: the last writable branch above this one. -/
def auWbrBu (brs : List Branch) : ℕ → Option ℕ
  | 0 => none
  | b + 1 => if writable brs b then some b else auWbrBu brs b

/-- `au_wbr_nonopq`: an opaque directory above needs a branch that is no lower. -/
def auWbrNonopq (dir : Path) (b : ℕ) : Exec ℕ :=
  dir.inits.dropLast.foldlM (fun err p => do
    let d ← dentryOf p
    return match d.bdiropq with
      | some bopq => if bopq < err then bopq else err
      | none => err) b

/-- `au_wbr_create_tdp`, which is the policy of copy-up too: the topmost writable branch that has
the parent. -/
def auWbrCreateTdp (dir : Path) (parent d : Dentry) : Exec ℕ := do
  let brs ← read
  let bstart := d.dbstart.getD 0
  if writable brs bstart then
    return bstart
  match parent.lower.find? fun x => x.1 < bstart && writable brs x.1 with
  | some x => return x.1
  | none =>
    match auWbrBu brs bstart with
    | some b => auWbrNonopq dir b
    | none => throw .erofs

/-- `au_wr_dir_cpup` for a new entry, in a branch above. -/
def auWrDirCpup (dir : Path) (name : String) (parent : Dentry) (bcpup : ℕ) : Exec Unit := do
  if !parent.hDptr bcpup then
    auCpupDirs bcpup dir
  auLkupNeg bcpup dir name

/-- `au_wr_dir` for a new entry: the branch to make it in, with the parent. -/
def auWrDir (dir : Path) (name : String) (parent d : Dentry) : Exec ℕ := do
  let brs ← read
  let r ← Trial.attempt (auWbrCreateTdp dir parent d)
  let bcpup ← match r with
    | .ok b => if writable brs b then pure b else auWbrCreateTdp dir parent d
    | .error _ => auWbrCreateTdp dir parent d
  if bcpup ≠ d.dbstart.getD 0 then
    auWrDirCpup dir name parent bcpup
  return bcpup

/-! ## Removal -/

section Del

variable (dir : Path) (name : String) (parent d : Dentry)

/-- The loop of `au_lkup_dentry` from below an entry: the number of entries it finds. -/
def auLkupBelow (allowNeg : Bool) (type : Option Kind) (npositive : ℕ) :
    List (ℕ × Branch) → Dentry → Except Errno ℕ
  | [], _ => .ok npositive
  | (i, br) :: brs, d => do
    if d.hDptr i then
      return npositive + 1
    let (n, d) ← auDoLookup dir name allowNeg type i br d
    if d.bwh.isSome then
      return npositive
    match n with
    | none => auLkupBelow false type npositive brs d
    | some n =>
      if type.getD (kind n) ≠ .dir || (d.node = some .dir && d.bdiropq.any (· ≤ i)) then
        return npositive + 1
      auLkupBelow false (type.or (some (kind n))) (npositive + 1) brs d

/-- `au_wr_dir_need_wh`: whether a whiteout is needed, and the branch for it with the parent. -/
def auWrDirNeedWh : Exec (Bool × ℕ) := do
  let brs ← read
  let bstart := d.dbstart.getD 0
  let bcpup ← if writable brs bstart then pure bstart else auWbrCreateTdp dir parent d
  if bcpup ≠ bstart then
    auCpupDirs bcpup dir
    return (true, bcpup)
  check
  let npositive ← known (auLkupBelow dir name true none 0
    ((parent.dirs brs).filter fun x => bstart < x.1) d)
  return (npositive ≠ 0, bcpup)

/-- `au_may_del`: the entry is still the one that was looked up. -/
def auMayDel (bindex : ℕ) (isdir : Bool) : Exec Unit := do
  if !isdir && d.node = some .dir then
    throw .eisdir
  if isdir && d.node ≠ some .dir then
    throw .enotdir
  let r ← Trial.attempt (lkupOne bindex (dir ++ [name]))
  match r with
  | .ok (some _) => return
  | _ => throw .eio

/-- `lock_hdir_create_wh`: the branch to work in; the whiteout is made before the entry goes. -/
def lockHdirCreateWh (isdir : Bool) : Exec (Bool × ℕ) := do
  let (needWh, bcpup) ← auWrDirNeedWh dir name parent d
  check
  if d.dbstart = some bcpup then
    auMayDel dir name d bcpup isdir
  if needWh then
    auWhCreate bcpup dir name
  return (needWh, bcpup)

/-- `do_revert`: the whiteout is taken back. -/
def doRevert (bindex : ℕ) : Exec Unit := do
  let r ← Trial.attempt (auWhUnlinkDentry bindex dir name)
  if let .error _ := r then
    throw .eio

/-- `aufs_unlink`. -/
def aufsUnlink : Exec Unit := do
  match d.node with
  | none => throw .enoent
  | some .dir => throw .eisdir
  | some _ =>
    let (wh, bindex) ← lockHdirCreateWh dir name parent d false
    if d.dbstart = some bindex then
      let r ← Trial.attempt (lower bindex (.unlink (dir ++ [name])))
      if let .error e := r then
        if wh then
          doRevert dir name bindex
        throw e

/-- `test_empty_cb`: a name that no whiteout above hides makes the directory a full one. -/
def testEmptyCb (i : ℕ) (whlist : List (String × ℕ)) (x : String × Kind) :
    Except Errno (List (String × ℕ)) :=
  if x.1 = "." ∨ x.1 = ".." then .ok whlist
  else if isOrdinary x.1 then
    if x.1 ∈ whlist.map Prod.fst then .ok whlist else .error .enotempty
  else if stripWh x.1 ∈ whlist.map Prod.fst then .ok whlist
  else .ok (whlist ++ [(stripWh x.1, i)])

/-- `au_test_empty`: the whiteouts of a directory with nothing in it. -/
def auTestEmpty (p : Path) (d : Dentry) : Exec (List (String × ℕ)) := do
  let brs ← read
  (d.dirs brs).foldlM (fun whlist x => do
    check
    known ((hReaddir x.2.files p).foldlM (testEmptyCb x.1) whlist)) []

/-- `AUFS_DIRWH_DEF`: with more whiteouts the directory is left to the work queue. -/
def dirwhDef : ℕ := 3

/-- `renwh_and_rmdir`: the directory gets a temporary name, under which it can be removed later. -/
def renwhAndRmdir (bindex : ℕ) (whlist : List (String × ℕ)) : Exec Unit := do
  let tmp ← auWhtmpRen bindex dir name
  if (whlist.filter (·.2 = bindex)).length ≤ dirwhDef then
    let _ ← Trial.attempt (auWhtmpRmdir bindex (dir ++ [tmp]) whlist)

/-- `aufs_rmdir`. -/
def aufsRmdir : Exec Unit := do
  match d.node with
  | none => throw .enoent
  | some .dir =>
    let whlist ← auTestEmpty (dir ++ [name]) d
    let (wh, bindex) ← lockHdirCreateWh dir name parent d true
    if d.dbstart = some bindex then
      let r ← Trial.attempt (renwhAndRmdir dir name bindex whlist)
      if let .error e := r then
        if wh then
          doRevert dir name bindex
        throw e
  | some _ => throw .enotdir

end Del

/-! ## Addition -/

section Add

variable (dir : Path) (name : String) (parent d : Dentry)

/-- `lock_hdir_lkup_wh`: the branch to work in, and whether the whiteout is there. -/
def lockHdirLkupWh : Exec (Bool × ℕ) := do
  let bcpup ← auWrDir dir name parent d
  check
  if maxNameLen < name.utf8ByteSize then
    throw .enametoolong
  if d.bwh = some bcpup then
    let _ ← auWhLkup bcpup dir name
    return (true, bcpup)
  return (false, bcpup)

/-- `epilog`: the whiteout goes after the entry is made, and comes back where there is no inode. -/
def epilog (bindex : ℕ) (wh : Bool) : Exec Unit := do
  if wh then
    auWhUnlinkDentry bindex dir name
  let r ← Trial.attempt check
  if let .error e := r then
    if wh then
      let r ← Trial.attempt (auWhCreate bindex dir name)
      if let .error _ := r then
        throw .eio
    throw e

/-- `add_simple`. -/
def addSimple (x : Node) : Exec Unit := do
  if d.node.isSome then
    throw .eexist
  let (wh, bstart) ← lockHdirLkupWh dir name parent d
  lower bstart (.create (dir ++ [name]) x)
  let r ← Trial.attempt (epilog dir name bstart wh)
  if let .error e := r then
    let there ← dInode bstart (dir ++ [name])
    if there.isSome then
      let r ← Trial.attempt (lower bstart (.unlink (dir ++ [name])))
      if let .error _ := r then
        throw .eio
    throw e

/-- The reverting end of `aufs_mkdir`. -/
def mkdirRevert (bindex : ℕ) (e : Errno) : Exec Unit := do
  let r ← Trial.attempt (lower bindex (.rmdir (dir ++ [name])))
  if let .error _ := r then
    throw .eio
  throw e

/-- `aufs_mkdir`: over a whiteout the new directory is opaque. -/
def aufsMkdir : Exec Unit := do
  if d.node.isSome then
    throw .eexist
  let (wh, bindex) ← lockHdirLkupWh dir name parent d
  lower bindex (.create (dir ++ [name]) .dir)
  let opq ← Trial.attempt (if wh then auDiropqCreate bindex (dir ++ [name]) else pure ())
  match opq with
  | .error e => mkdirRevert dir name bindex e
  | .ok () =>
    let r ← Trial.attempt (epilog dir name bindex wh)
    if let .error e := r then
      let r ← Trial.attempt (if wh then auDiropqRemove bindex (dir ++ [name]) else pure ())
      mkdirRevert dir name bindex (if let .error _ := r then .eio else e)

end Add

/-! ## Writing -/

/-- `au_ready_to_write` and the write: a file of a read-only branch is copied up first. -/
def aufsWrite (dir : Path) (name : String) (parent d : Dentry) (t : Text) : Exec Unit := do
  match d.node with
  | none => throw .enoent
  | some .dir => throw .eisdir
  | some (.file _) =>
    let brs ← read
    let bstart := d.dbstart.getD 0
    if writable brs bstart then
      check
      lower bstart (.write (dir ++ [name]) t)
    else
      let bcpup ← auWbrCreateTdp dir parent d
      if !parent.hDptr bcpup then
        auCpupDirs bcpup dir
      check
      check
      auSioCpupSimple bcpup dir name d
      check
      lower bcpup (.write (dir ++ [name]) t)
  | some _ => throw .einval

/-! ## System calls -/

/-- The system calls on an entry. -/
inductive Syscall
  | create
  | symlink (t : Text)
  | mknod
  | mkdir
  | unlink
  | rmdir
  | write (t : Text)

/-- A system call on a name in a directory: the lookup, and the operation. -/
def perform (dir : Path) (name : String) (call : Syscall) : Exec Unit := do
  let brs ← read
  let parent ← known (resolve brs dir)
  let d ← match parent.node with
    | none => throw .enoent
    | some .dir => known (aufsLookup brs dir parent name)
    | some _ => throw .enotdir
  match call with
  | .create => addSimple dir name parent d (.file [])
  | .symlink t => addSimple dir name parent d (.link t)
  | .mknod => addSimple dir name parent d .special
  | .mkdir => aufsMkdir dir name parent d
  | .unlink => aufsUnlink dir name parent d
  | .rmdir => aufsRmdir dir name parent d
  | .write t => aufsWrite dir name parent d t

end Meta3dr.Aufs
