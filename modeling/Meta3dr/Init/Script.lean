import Meta3dr.Init.Machine

/-!
# The script `init`

The functions of `init` and its main part, command by command. Messages on the console are left
out. A loop over the words of an expansion is a fold, since its body only assigns.

## Main definitions

* `createPartitions`, `removePartitions`, `checkRwfs`, `checkLog`, `mountAndBoot`,
  `factoryReset`: the functions of the script
* `chooseTarball`, `install`, `update`: the update branch of the main part
* `main`, `init`: the script up to `mount_and_boot`, and as a whole
* `powerOn`: the state in which a boot starts
-/

namespace Meta3dr

open Shell Storage Program

/-- How the script ends: `/sbin/shutdown -r -n now` and `switch_root` never return. -/
inductive Exit
  | reboot | handover
  deriving DecidableEq

abbrev Script := Prog Cmd Reply Exit

/-- Issue a command and ignore its reply. -/
def sh (c : Cmd) : Script Unit := .issue c fun _ => .ret ()

/-- The exit status of a command. -/
def status (c : Cmd) : Script ℕ := .issue c fun r => .ret r.status

/-- The lines a command prints. -/
def out (c : Cmd) : Script (List Text) := .issue c fun r => .ret r.out

/-- A command as a condition. -/
def cond (c : Cmd) : Script Bool := .issue c fun r => .ret (r.status == 0)

def shutdown : Script Unit := .exit .reboot

section Bind

variable {α : Type} (c : Cmd)

@[simp] theorem sh_bind (f : Unit → Script α) : (sh c >>= f) = .issue c fun _ => f () := rfl

@[simp] theorem status_bind (f : ℕ → Script α) :
    (status c >>= f) = .issue c fun r => f r.status := rfl

@[simp] theorem out_bind (f : List Text → Script α) :
    (out c >>= f) = .issue c fun r => f r.out := rfl

@[simp] theorem cond_bind (f : Bool → Script α) :
    (cond c >>= f) = .issue c fun r => f (r.status == 0) := rfl

@[simp] theorem shutdown_bind (f : Unit → Script α) : (shutdown >>= f) = .exit .reboot := rfl

end Bind

/-! ## Paths -/

abbrev mntLog : Path := ["mnt", "log"]
abbrev mntLatest : Path := ["mnt", "latest"]
abbrev mntGolden : Path := ["mnt", "golden"]
abbrev updates : Path := ["mnt", "log", "updates"]
abbrev UPDATE : Path := ["mnt", "log", "updates", "UPDATE"]
abbrev UPDATEFAILED : Path := ["mnt", "log", "updates", "UPDATEFAILED"]
abbrev READY : Path := ["mnt", "log", "updates", "READY"]
abbrev FACTORYRESET : Path := ["mnt", "log", "updates", "FACTORYRESET"]
abbrev RESETSETTINGS : Path := ["mnt", "log", "updates", "RESETSETTINGS"]
abbrev rootMount : Path := ["rootfs"]

/-! ## Functions -/

def earlySetup : Script Unit := do
  sh (.mkdir .parents ["proc"])
  sh (.mkdir .parents ["sys"])
  sh (.mountPseudo "proc" ["proc"])
  sh (.mountPseudo "sysfs" ["sys"])
  sh (.mountPseudo "devtmpfs" ["dev"])
  sh (.device "modprobe isofs")
  sh (.mkdir .parents ["run"])
  sh (.mkdir .parents ["var", "run"])

/-- `ROOT_DEVICE` and `FORCE_FACTORY_RESET`. -/
structure Args where
  rootDevice : Text := []
  forceFactoryReset : Text := []

/-- What follows the first `=` of an argument. -/
def optarg (arg : Text) : Text := (arg.dropWhile (· ≠ '=')).drop 1

/-- One turn of the loop over `CMDLINE`. -/
def readArg (a : Args) (arg : Text) : Args :=
  if "root=".toList.isPrefixOf arg then { a with rootDevice := optarg arg }
  else if "factoryreset=".toList.isPrefixOf arg then { a with forceFactoryReset := optarg arg }
  else a

/-- `CMDLINE`, `ROOT_DEVICE` and `FORCE_FACTORY_RESET` can be there already. -/
def readArgs : Script Args := do
  let set ← out (.variable .cmdline)
  let cmdline ← if set.flatten = [] then out .catCmdline else pure set
  let rootDevice ← out (.variable .rootDevice)
  let forceFactoryReset ← out (.variable .forceFactoryReset)
  let args ← out (.expand cmdline.flatten)
  return args.foldl readArg ⟨rootDevice.flatten, forceFactoryReset.flatten⟩

def createPartitions : Script Unit := do
  sh (.partedMkpart 100 (some 200))
  sh (.partedMkpart 200 (some 300))
  sh (.partedMkpart 300 none)
  sh (.mkfs .p2 .vfat "LATEST")
  sh (.mkfs .p3 .ext3 "RWFS")
  sh (.mkfs .p4 .ext3 "LOG")

def removePartitions : Script Unit := do
  sh (.partedRm .p2)
  sh (.partedRm .p3)
  sh (.partedRm .p4)

def setScreenUpdating : Script Unit := do
  sh (.device "stty -F /dev/ttymxc1 115200 cs8 -cstopb -parity -crtscts")
  sh (.device "echo -en \\xC0\\x12\\x00\\xC0 > /dev/ttymxc1")

def setLedUpdating : Script Unit := do
  sh (.device "echo timer >> /sys/class/leds/user2/trigger")
  sh (.device "echo 50 >> /sys/class/leds/user2/delay_on")
  sh (.device "echo 50 >> /sys/class/leds/user2/delay_off")

def setLedDone : Script Unit := sh (.device "echo none >> /sys/class/leds/user2/trigger")

def checkRwfs : Script Unit := do
  if 4 ≤ (← status (.fsck .p3 .ext3)) then
    setLedUpdating
    sh (.umountPart .p3)
    sh (.mkfs .p3 .ext3 "RWFS")
    setLedDone

def checkLog : Script Unit := do
  if 4 ≤ (← status (.fsck .p4 .ext3)) then
    setLedUpdating
    sh (.umountPart .p4)
    sh (.partedRm .p4)
    sh (.partedMkpart 300 none)
    sh (.mkfs .p4 .ext3 "LOG")
    setLedDone
    sh (.mkdir .f updates)
    sh (.mountPart .p4 mntLog)
    sh (.mkdir .plain updates)
    sh (.touch READY)
    sh (.umount [mntLog])

def bootLiveRoot : Script Unit := do
  sh (.moveMount ["proc"] (rootMount ++ ["proc"]))
  sh (.moveMount ["sys"] (rootMount ++ ["sys"]))
  sh (.moveMount ["dev"] (rootMount ++ ["dev"]))
  sh (.cd rootMount)
  .exit .handover

/-- `mount_and_boot` up to the check of RWFS. -/
def mountImages (rootDevice : Text) : Script Unit := do
  sh (.mkdir .plain rootMount)
  sh (.device "mknod /dev/loop0 b 7 0")
  sh (.mkdir .parents ["mnt", "ro_rootfs"])
  sh (.mkdir .parents ["mnt", "rw_rootfs"])
  sh (.mkdir .parents ["mnt", "boot"])
  sh (.fsck .p1 .vfat)
  sh (.fsck .p2 .vfat)
  let device ← out (.expand rootDevice)
  sh (.mountRoot device ["mnt", "boot"])
  let images ← out (.expand "/mnt/boot/*.squashfs".toList)
  sh (.mountImage images ["mnt", "ro_rootfs"])

/-- `mount_and_boot` from the mount of RWFS on. -/
def mountRootfs : Script Unit := do
  sh (.mountPart .p3 ["mnt", "rw_rootfs"])
  sh (.mountUnion ["mnt", "rw_rootfs"] ["mnt", "ro_rootfs"] rootMount)
  sh (.mkdir .parents (rootMount ++ ["mnt", "rootfs.ro"]))
  sh (.mkdir .parents (rootMount ++ ["mnt", "rootfs.rw"]))
  sh (.mkdir .parents (rootMount ++ ["mnt", "boot"]))
  sh (.moveMount ["mnt", "boot"] (rootMount ++ ["mnt", "boot"]))
  sh (.moveMount ["mnt", "ro_rootfs"] (rootMount ++ ["mnt", "rootfs.ro"]))
  sh (.moveMount ["mnt", "rw_rootfs"] (rootMount ++ ["mnt", "rootfs.rw"]))
  bootLiveRoot

def mountAndBoot (rootDevice : Text) : Script Unit := do
  mountImages rootDevice
  checkRwfs
  mountRootfs

def factoryReset : Script Unit := do
  setScreenUpdating
  setLedUpdating
  removePartitions
  createPartitions
  sh (.mkdir .parents mntGolden)
  sh (.mountPart .p1 mntGolden)
  if ← cond (.isThere (mntGolden ++ ["u-boot.imx"])) then
    sh (.dd (mntGolden ++ ["u-boot.imx"]))
  setLedDone
  sh (.umount [mntGolden])
  sh .sync
  shutdown

/-! ## The update branch -/

/-- `latestFile` after the loop over the sorted tarballs: the last word of the list. -/
def chooseTarball : Script Text := do
  let found ← out (.find updates ".tar.gz")
  let files ← out (.expand (unlines (sortLines found)))
  return files.foldl (fun _ file => file) []

/-- The common end of the three rejections. -/
def reject (message : String) : Script Unit := do
  sh (.rm false UPDATE)
  sh (.append message UPDATEFAILED)
  setLedDone
  sh .sync
  shutdown

/-- `rm` of an unquoted expansion. -/
def rmExpanded (t : Text) : Script Unit := do
  let ws ← out (.expand t)
  sh (.rmWords ws)

/-- Partitions 3 and 4 deleted, recreated and formatted: both copies of the settings reset. -/
def resetSettings : Script Unit := do
  sh (.partedRm .p3)
  sh (.partedRm .p4)
  sh (.partedMkpart 200 (some 300))
  sh (.partedMkpart 300 none)
  sh (.mkfs .p3 .ext3 "RWFS")
  sh (.mkfs .p4 .ext3 "LOG")

/-- The words of `${latestFile}.md5`. -/
def md5Name (latestFile : Text) : Text := latestFile ++ ".md5".toList

/-- The MD5 check of the update tarball: the test on the second words of the checker's lines. -/
def md5Accepts (latestFile : Text) : Script Bool := do
  sh (.cd updates)
  let lists ← out (.expand (md5Name latestFile))
  let printed ← out (.md5sumCheck lists)
  let md5res ← out (.expand (unlines (printed.map secondField)))
  cond (.test (md5res ++ ["==".toList, "OK".toList]))

/-- LATEST formatted and filled from the tarball, the boot loader flashed, and the settings reset
that was also requested. -/
def install (latestFile : Text) : Script Unit := do
  sh (.mkfs .p2 .vfat "LATEST")
  sh (.mkdir .plain mntLatest)
  sh (.mountPart .p2 mntLatest)
  let archive ← out (.expand latestFile)
  sh (.tar archive mntLatest)
  if ← cond (.isThere (mntLatest ++ ["u-boot.imx"])) then
    sh (.dd (mntLatest ++ ["u-boot.imx"]))
  sh (.rm false UPDATE)
  if ← cond (.isThere RESETSETTINGS) then
    sh (.umount [mntLog, mntLatest])
    resetSettings
  setLedDone
  sh .sync
  shutdown

/-- The update branch, entered when `UPDATE` is there. -/
def update : Script Unit := do
  sh (.rm true READY)
  sh .sync
  setScreenUpdating
  setLedUpdating
  let latestFile ← chooseTarball
  let name ← out (.expand latestFile)
  if ← cond (.test ("-z".toList :: name)) then
    reject "No update tarball"
  let list ← out (.expand (md5Name latestFile))
  if ← cond (.test ("!".toList :: "-e".toList :: list)) then
    rmExpanded latestFile
    reject "MD5 Missing"
  if !(← md5Accepts latestFile) then
    rmExpanded latestFile
    rmExpanded (md5Name latestFile)
    reject "MD5 Failed"
  sh (.cd [])
  install latestFile

/-! ## The main part -/

/-- The requests on LOG: an update, a factory reset or a settings reset, in this order. -/
def requests : Script Unit := do
  sh (.mkdir .plain mntLog)
  sh (.mountPart .p4 mntLog)
  if ← cond (.isThere UPDATE) then
    update
  else if ← cond (.isThere FACTORYRESET) then
    sh (.umount [mntLog])
    factoryReset
  else if ← cond (.isThere RESETSETTINGS) then
    setScreenUpdating
    setLedUpdating
    sh (.umount [mntLog])
    resetSettings
    setLedDone
    sh .sync
    shutdown
  sh (.umount [mntLog])

/-- The script up to `mount_and_boot`; its result is `ROOT_DEVICE`. -/
def main : Script Text := do
  earlySetup
  let args ← readArgs
  if !(← cond (.nodeExists .p2)) then
    setScreenUpdating
    setLedUpdating
    createPartitions
    setLedDone
  else
    let force ← out (.expand args.forceFactoryReset)
    if ← cond (.test (force ++ ["==".toList, "1".toList])) then
      factoryReset
    checkLog
    requests
  return args.rootDevice

/-- The whole script. -/
def init : Script Unit := do
  let rootDevice ← main
  mountAndBoot rootDevice

/-- The state in which a boot starts. -/
def powerOn (w : World) (c : Card) : Machine := { card := c, ram := w.initramfs.files }

end Meta3dr
