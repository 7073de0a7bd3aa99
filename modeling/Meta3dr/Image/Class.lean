import Meta3dr.Shell.Words

/-!
# The image class

`generate_imx_sdcard` assembles the file system of GOLDEN and the update tarball of a build, each by
copying files out of the deploy directory, and publishes the tarball under two names. A copy that
fails, or a file that is missing, ends the build.

## Main definitions

* `Build`: the variables of a build, and the files it is made of
* `goldenCopies`, `tarCopies`: the copies made for GOLDEN and for the tarball
* `contents`: the files that copies leave on GOLDEN
-/

namespace Meta3dr.Image

open Shell

/-- The deploy directory: the content a name leads to, and the link that `readlink` prints. -/
structure Deploy where
  read : Text → Option Text
  readlink : Text → Text

/-- A build. `source` reads the files that `BOOT_SCRIPTS` names, and `sed` is the substitution of a
base name by the machine's. `KERNEL_IMAGETYPE` has no dot. -/
structure Build where
  machine : Text
  kernelImagetype : Text
  imageBasename : Text
  imageName : Text
  datetime : Text
  ubootSuffixSdcard : Text
  ubootPadding : ℕ
  kernelDevicetree : List Text
  bootScripts : List Text
  source : Text → Option Text
  deploy : Deploy
  sed : Text → Text → Text → Text
  dotless : '.' ∉ kernelImagetype

/-- A file copied under a name. -/
abbrev Copy := Text × Text

/-- What `mcopy` leaves when a name is taken, from the old content and the new one, or nothing when
it ends the build. Without `-o` it asks the user first, so this is not settled here. -/
abbrev Clash := Text → Text → Option Text

/-- One more content under a name. -/
def mcopy (clash : Clash) : Option Text → Text → Option (Option Text)
  | none, new => some (some new)
  | some old, new => (clash old new).map some

/-- The files that copies leave on an empty vfat file system. -/
def contents (clash : Clash) (copies : List Copy) : Option (Text → Option Text) :=
  copies.foldlM (fun fs c => (mcopy clash (fs c.1) c.2).map fun t d =>
    if foldCase c.1 = foldCase d then t else fs d) fun _ => none

/-- The contents copied under a name, in order. -/
def under (d : Text) (copies : List Copy) : List Text :=
  (copies.filter fun c => foldCase c.1 = foldCase d).map Prod.snd

/-- What is left of contents copied under one name. -/
def remains (clash : Clash) (ts : List Text) : Option (Option Text) := ts.foldlM (mcopy clash) none

namespace Build

variable (b : Build)

/-- `awk -F':' '{ print $n }'`. -/
def awkField (n : ℕ) (item : Text) : Text := (item.splitOn ':')[n - 1]?.getD []

/-- `basename` of a name without trailing slashes. -/
def basename (f : Text) : Text := (f.splitOn '/').getLast?.getD []

/-- `DTS_BASE_NAME` of a device tree file. -/
def dtsBaseName (f : Text) : Text := (basename f).takeWhile (· ≠ '.')

/-- The name of a device tree in the deploy directory. -/
def dtbFile (base : Text) : Text := b.kernelImagetype ++ '-' :: base ++ ".dtb".toList

def dtbName (base : Text) : Text := base ++ ".dtb".toList

def squashfsName : Text := b.imageBasename ++ '-' :: b.machine ++ ".squashfs".toList

def ubootName : Text := "u-boot.imx".toList

def copyKernel : Option Copy :=
  (b.deploy.read (b.kernelImagetype ++ "-initramfs-".toList ++ b.machine ++ ".bin".toList)).map
    fun t => (b.kernelImagetype, t)

def copySquashfs : Option Copy :=
  (b.deploy.read (b.imageName ++ ".rootfs.squashfs".toList)).map fun t => (b.squashfsName, t)

/-- The name a boot script is copied under. Without a `dst` it keeps the name of its source. -/
def scriptName (item : Text) : Text :=
  if awkField 2 item = [] then basename (awkField 1 item) else awkField 2 item

/-- One turn of the loop over `BOOT_SCRIPTS`. -/
def copyScript (item : Text) : Option Copy :=
  (b.source (awkField 1 item)).map fun t => (scriptName item, t)

/-- The link of the device tree names the kernel. -/
def kernelMatches (base : Text) : Bool :=
  b.deploy.readlink (b.kernelImagetype ++ '-' :: b.machine ++ ".bin".toList) ==
    b.sed base b.machine (b.deploy.readlink (b.dtbFile base))

/-- One turn of the loop over `KERNEL_DEVICETREE`. -/
def copyDtb (f : Text) : Option (List Copy) :=
  let base := dtsBaseName f
  if (b.deploy.read (b.dtbFile base)).isSome && b.kernelMatches base then
    (b.deploy.read (b.dtbFile base)).map fun t => [(dtbName base, t)]
  else some []

/-- The copies into the file system of GOLDEN. -/
def goldenCopies : Option (List Copy) := do
  let kernel ← b.copyKernel
  let scripts ← b.bootScripts.mapM b.copyScript
  let dtbs ← b.kernelDevicetree.mapM b.copyDtb
  let squashfs ← b.copySquashfs
  let uboot ← (b.deploy.read ubootName).map fun t => (ubootName, t)
  return kernel :: (scripts ++ (dtbs.flatten ++ [squashfs, uboot]))

/-- `DTS_BASE_NAME` after the loop, which leaves it unset when there are no device trees. -/
def lastBaseName : Text := (b.kernelDevicetree.getLast?.map dtsBaseName).getD []

/-- The boot loader binary that is burned and put into the tarball. -/
def ubootFile : Text := "u-boot-".toList ++ b.machine ++ '.' :: b.ubootSuffixSdcard

/-- The copies that the tarball is made of, each under a name of its own. -/
def tarCopies : Option (List Copy) := do
  let dtb ← (b.deploy.read (b.dtbFile b.lastBaseName)).map fun t => (dtbName b.lastBaseName, t)
  let kernel ← b.copyKernel
  let squashfs ← b.copySquashfs
  let uboot ← (b.deploy.read b.ubootFile).map fun t => (ubootName, t)
  return [dtb, kernel, squashfs, uboot]

end Build

end Meta3dr.Image
