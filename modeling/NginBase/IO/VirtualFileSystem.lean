import NginBase.Library.Dialogue
import NginBase.IO.FileSystem

namespace NginBase.IO

open Library Library.Dialogue

structure MountPoint where
  virtualPrefix : Path := Path.root
  priority : Int := 0
  readOnly : Bool := false

def prefixCompare (a b : MountPoint) : Bool :=
  let aLen := a.virtualPrefix.view.length
  let bLen := b.virtualPrefix.view.length
  if aLen ≠ bLen then bLen < aLen
  else if a.priority ≠ b.priority then b.priority < a.priority
  else decide (a.virtualPrefix.view < b.virtualPrefix.view)

/-- What a mount object says of itself without consulting its file system. -/
structure Mount where
  point : MountPoint
  canResolve : Path → Bool
  translate : Path → Except IOError Path
  hasAsyncFileSystem : Bool

structure LocalMount where
  realRoot : Path
  mountPoint : MountPoint

namespace LocalMount

def make (realRoot : Path) (mountPoint : MountPoint) : LocalMount where
  realRoot := realRoot.lexicallyNormal
  mountPoint :=
    let virtualPrefix := if mountPoint.virtualPrefix.isEmpty then Path.root else mountPoint.virtualPrefix
    { mountPoint with virtualPrefix := virtualPrefix.lexicallyNormal }

def canResolve (mount : LocalMount) (virtualPath : Path) : Bool :=
  virtualPath.lexicallyNormal.startsWith mount.mountPoint.virtualPrefix

def translate (mount : LocalMount) (virtualPath : Path) : Except IOError Path :=
  let normalized := virtualPath.lexicallyNormal
  let start := mount.mountPoint.virtualPrefix
  if !normalized.startsWith start then .error (makeError .invalidPath "path does not match mount" virtualPath)
  else
    let suffix := (normalized.view.drop start.view.length).dropWhile Path.isSeparator
    let out := (mount.realRoot.join suffix).lexicallyNormal
    if !out.startsWith mount.realRoot then
      .error (makeError .invalidPath "resolved path escapes mount root" virtualPath)
    else .ok out

def mount (local_ : LocalMount) : Mount where
  point := local_.mountPoint
  canResolve := local_.canResolve
  translate := local_.translate
  hasAsyncFileSystem := true

end LocalMount

abbrev MountId := Nat

section

/-- How an operation fails. Only asynchronous operations are canceled or end in a fault. -/
inductive Failure
  | domain (error : IOError)
  | canceled
  | fault

inductive Question
  | mounts
  | isCancellationRequested
  | virtualize (mount : MountId) (realPath : Path)
  | call (mount : MountId) (kind : Kind) (call : Call kind)
  | callAsync (mount : MountId) (kind : Kind) (call : AsyncCall kind)

def Answer : Question → Type
  | .mounts => List MountId
  | .isCancellationRequested => Bool
  | .virtualize _ _ => Except IOError Path
  | .call _ kind _ => Except IOError kind.Carrier
  | .callAsync _ kind _ => Except Failure kind.Carrier

abbrev Task := Dialogue Question Answer Failure

variable {α : Type} {kind : Kind}

def failure (code : IOErrorCode) (message : String) (path : Path := ⟨[]⟩) (secondary : Path := ⟨[]⟩) : Task α :=
  fail (.domain (makeError code message path secondary))

def ofResult : Except IOError α → Task α
  | .ok a => pure a
  | .error e => fail (.domain e)

def ofOutcome : Except Failure α → Task α
  | .ok a => pure a
  | .error e => fail e

def currentMounts : Task (List MountId) := query Question.mounts

def isCancellationRequested : Task Bool := query Question.isCancellationRequested

def virtualize (mount : MountId) (realPath : Path) : Task Path := ask (.virtualize mount realPath) ofResult

def forward (mount : MountId) (call : Call kind) : Task kind.Carrier := ask (.call mount kind call) ofResult

def forwardAsync (mount : MountId) (call : AsyncCall kind) : Task kind.Carrier :=
  ask (.callAsync mount kind call) ofOutcome

end

section

variable (source destination : MountId) (options : CopyOptions)

def removeCopiedPath (mount : MountId) (path : Path) : Task Unit := do
  let info ← forward mount (.getInfo path { symlinkMode := .doNotFollow })
  if !info.exists_ then pure ()
  else if info.type = .directory then
    forward mount (.removeDirectory path { recursive := true, ignoreMissing := true })
  else forward mount (.removeFile path { ignoreMissing := true })

def sourceOpen : FileOpenOptions := { access := .read, share := { read := true }, disposition := .openExisting }

def destinationOpen : FileOpenOptions where
  access := .write
  share := { read := true }
  disposition := if options.overwriteExisting then .createAlways else .createNew

def bufferSize : Nat := 64 * 1024

def writeBuffer (file : FileHandle) (sourcePath destinationPath : Path) : Nat → Bytes → Task Unit
  | 0, _ => pause
  | fuel + 1, data => do
    if data = [] then pure ()
    else
      let count : Nat ← forward destination (.write file data)
      if count = 0 then
        failure .endOfStream "zero-byte write during cross-mount copy" sourcePath destinationPath
      else writeBuffer file sourcePath destinationPath fuel (data.drop count)

def copyContent (input output : FileHandle) (sourcePath destinationPath : Path) : Nat → Task Unit
  | 0 => pause
  | fuel + 1 => do
    let data : Bytes ← forward source (.read input bufferSize)
    if data = [] then pure ()
    else
      writeBuffer destination output sourcePath destinationPath fuel data
      copyContent input output sourcePath destinationPath fuel

def closeFile (mount : MountId) (file : FileHandle) : Task Unit := do
  let _ ← (forward mount (.close file)).attempt

def keepPermissions (destinationPath : Path) (sourceInfo : FileInfo) : Task Unit :=
  if options.preservePermissions then
    forward destination (.setPermissions destinationPath sourceInfo.permissions .follow)
  else pure ()

/-- What `CopyCleanup` does when it is destroyed before its release. -/
def copyCleanup (destinationPath : Path) (active : Bool) : Task Unit :=
  if active then removeCopiedPath destination destinationPath else pure ()

def copyRegularFile (fuel : Nat) (sourcePath destinationPath : Path) (sourceInfo destinationInfo : FileInfo) :
    Task Unit := do
  let input ← forward source (.openFile sourcePath sourceOpen)
  let output ← forward destination (.openFile destinationPath (destinationOpen options))
  let copied ← (copyContent source destination input output sourcePath destinationPath fuel).attempt
  closeFile source input
  closeFile destination output
  match copied with
  | .error e => do
    let active := !destinationInfo.exists_ && options.cleanupOnFailure
    let _ ← (copyCleanup destination destinationPath active).attempt
    fail e
  | .ok _ => keepPermissions destination options destinationPath sourceInfo

def clearEntry (destinationPath : Path) (alreadyExists : Task Unit) : Task Unit :=
  if options.overwriteExisting then removeCopiedPath destination destinationPath else alreadyExists

def copySymlink (sourcePath destinationPath : Path) (destinationInfo : FileInfo) : Task Unit := do
  if destinationInfo.exists_ then
    clearEntry destination options destinationPath
      (failure .alreadyExists "destination exists" destinationPath sourcePath)
  let target : Path ← forward source (.readSymlink sourcePath)
  forward destination (.createSymlink target destinationPath)

def copyEntries (enumerator : DirectoryEnumerator) (copy : DirectoryEntry → Task Unit) : Nat → Task Unit
  | 0 => pause
  | fuel + 1 => do
    let next : Option DirectoryEntry ← forward source (.next enumerator)
    match next with
    | none => pure ()
    | some entry => do
      copy entry
      copyEntries enumerator copy fuel

/-- Whether the directory has to be created, once what stands in its place is gone. -/
def clearDestination (destinationPath : Path) (destinationInfo : FileInfo) (alreadyExists : Task Unit) : Task Bool := do
  if destinationInfo.exists_ && destinationInfo.type != .directory then
    clearEntry destination options destinationPath alreadyExists
    pure true
  else pure (!destinationInfo.exists_)

def createMissing (destinationPath : Path) (create : Bool) (options : DirectoryCreateOptions) : Task Unit :=
  if create then forward destination (.createDirectory destinationPath options) else pure ()

def onPath (activeDirectories : List FileIdentity) (identity : FileIdentity) : Bool :=
  activeDirectories.any fun active => active.device == identity.device && active.inode == identity.inode

def copyDirectory (copy : DirectoryEntry → List FileIdentity → Task Unit) (fuel : Nat) (sourcePath destinationPath : Path)
    (sourceInfo destinationInfo : FileInfo) (activeDirectories : List FileIdentity) : Task Unit :=
  let identity := sourceInfo.identity
  if !options.recursive then
    failure .notSupported "directory copy requires recursive option" sourcePath destinationPath
  else if identity.valid && onPath activeDirectories identity then
    failure .invalidPath "symbolic-link cycle detected during cross-mount copy" sourcePath destinationPath
  else do
    let active := if identity.valid then activeDirectories ++ [identity] else activeDirectories
    let create ← clearDestination destination options destinationPath destinationInfo
      (failure .alreadyExists "destination exists" destinationPath sourcePath)
    createMissing destination destinationPath create { recursive := false, ignoreIfExists := false }
    let copied : Task Unit := do
      let enumerator : DirectoryEnumerator ← forward source (.enumerate sourcePath
        { recursive := false, includeFiles := true, includeDirectories := true, includeSymlinks := true })
      copyEntries source enumerator (copy · active) fuel
      keepPermissions destination options destinationPath sourceInfo
    copied.onFailure (copyCleanup destination destinationPath (create && options.cleanupOnFailure))

/-- The entry that a copy starts from: the target of a symbolic link that is followed. -/
def followSource (sourcePath destinationPath : Path) (sourceInfo : FileInfo) : Task FileInfo := do
  if sourceInfo.type = .symlink then
    let target : FileInfo ← forward source (.getInfo sourcePath { symlinkMode := .follow })
    if !target.exists_ || target.type == .symlink then
      failure .notFound "symbolic-link target does not exist" sourcePath destinationPath
    else pure target
  else pure sourceInfo

def copyAcrossFileSystems : Nat → Path → Path → List FileIdentity → Task Unit
  | 0, _, _, _ => pause
  | fuel + 1, sourcePath, destinationPath, activeDirectories => do
    let sourceInfo : FileInfo ← forward source (.getInfo sourcePath { symlinkMode := .doNotFollow })
    if !sourceInfo.exists_ then
      failure .notFound "cross-mount copy source not found" sourcePath destinationPath
    else if sourceInfo.type = .symlink ∧ options.symlinks = .reject then
      failure .notSupported "cross-mount copy rejected a symbolic link" sourcePath destinationPath
    else
      let destinationInfo : FileInfo ← forward destination (.getInfo destinationPath { symlinkMode := .doNotFollow })
      if sourceInfo.type = .symlink ∧ options.symlinks = .preserve then
        copySymlink source destination options sourcePath destinationPath destinationInfo
      else
        let sourceInfo ← followSource source sourcePath destinationPath sourceInfo
        if sourceInfo.type = .directory then
          copyDirectory source destination options
            (fun entry => copyAcrossFileSystems fuel entry.path (destinationPath.join entry.name.view)) fuel sourcePath
            destinationPath sourceInfo destinationInfo activeDirectories
        else if sourceInfo.type ≠ .file then
          failure .notSupported "cross-mount copy is unsupported for this entry type" sourcePath destinationPath
        else
          copyRegularFile source destination options fuel sourcePath destinationPath sourceInfo destinationInfo

end

section

variable (mounts : MountId → Mount) {kind : Kind}

def resolvePath : List MountId → Path → Except IOError (MountId × Path)
  | [], virtualPath => .error (makeError .notFound "no mount for virtual path" virtualPath)
  | mount :: rest, virtualPath =>
    if (mounts mount).canResolve virtualPath then
      match (mounts mount).translate virtualPath with
      | .ok translated => .ok (mount, translated)
      | .error e => .error e
    else resolvePath rest virtualPath

def readOnly (mount : MountId) : Bool := (mounts mount).point.readOnly

def rejectReadOnly (mount : MountId) (message : String) (path : Path) (secondary : Path := ⟨[]⟩) : Task Unit :=
  if readOnly mounts mount then failure .permissionDenied message path secondary else pure ()

def requireSame (lhs rhs : MountId) (message : String) (path secondary : Path) : Task Unit :=
  if lhs ≠ rhs then failure .crossDevice message path secondary else pure ()

def requireAsync (mount : MountId) (message : String) (path : Path) (secondary : Path := ⟨[]⟩) : Task Unit :=
  if (mounts mount).hasAsyncFileSystem then pure () else failure .unsupported message path secondary

end

/-! The operations of `VirtualFileSystem`, with the mounts registered in `table`. -/
namespace VirtualFileSystem

variable (mounts : MountId → Mount) (table : List MountId) {kind : Kind}

def resolve (path : Path) : Task (MountId × Path) := ofResult (resolvePath mounts table path)

def forwardTo (path : Path) (call : Path → Call kind) : Task kind.Carrier := do
  let (mount, translated) ← resolve mounts table path
  forward mount (call translated)

/-- An operation that is handed to the mount of its path unless that is read-only. -/
def forwardWriting (path : Path) (call : Path → Call kind) : Task kind.Carrier := do
  let (mount, translated) ← resolve mounts table path
  rejectReadOnly mounts mount "mount is read-only" path
  forward mount (call translated)

def getCapabilities : Task FileSystemCapabilities :=
  match table with
  | [] => pure fun _ => false
  | front :: rest => do
    let capabilities ← forward front .getCapabilities
    rest.foldlM (fun capabilities mount => do
      let further ← forward mount .getCapabilities
      pure (intersectCapabilities capabilities further)) capabilities

def exists_ (path : Path) : Task Bool := forwardTo mounts table path .exists_

def getInfo (path : Path) (options : MetadataOptions) : Task FileInfo := do
  let info : FileInfo ← forwardTo mounts table path (.getInfo · options)
  pure { info with path }

def absolute (path base : Path) : Task Path :=
  if path.isAbsolute then pure path.lexicallyNormal
  else if base.isEmpty then failure .unsupported "virtual cwd is not defined" path
  else pure (base.join path.view).lexicallyNormal

def canonical (path : Path) : Task Path := do
  let (mount, translated) ← resolve mounts table path
  let canonical : Path ← forward mount (.canonical translated)
  virtualize mount canonical

def weaklyCanonical (path : Path) : Task Path := do
  let (mount, translated) ← resolve mounts table path
  let canonical : Path ← forward mount (.weaklyCanonical translated)
  virtualize mount canonical

def sameFile (lhs rhs : Path) : Task Bool := do
  let (lhsMount, lhsPath) ← resolve mounts table lhs
  let (rhsMount, rhsPath) ← resolve mounts table rhs
  if lhsMount ≠ rhsMount then pure false
  else forward lhsMount (.sameFile lhsPath rhsPath)

def readSymlink (path : Path) : Task Path := do
  let (mount, translated) ← resolve mounts table path
  let target : Path ← forward mount (.readSymlink translated)
  if target.isAbsolute then
    match ← (virtualize mount target).attempt with
    | .ok virtualized => pure virtualized
    | .error _ => pure target
  else pure target

def createDirectory (path : Path) (options : DirectoryCreateOptions) : Task Unit :=
  forwardWriting mounts table path (.createDirectory · options)

def createDirectories (path : Path) (options : DirectoryCreateOptions) : Task Unit :=
  forwardWriting mounts table path (.createDirectories · options)

def createSymlink (target linkPath : Path) : Task Unit := do
  let (mount, translated) ← resolve mounts table linkPath
  rejectReadOnly mounts mount "mount is read-only" linkPath
  if target.isAbsolute then
    let (targetMount, translatedTarget) ← resolve mounts table target
    requireSame targetMount mount "cross-mount symlink target is not supported" target linkPath
    forward mount (.createSymlink translatedTarget translated)
  else forward mount (.createSymlink target translated)

def createHardLink (target linkPath : Path) : Task Unit := do
  let (targetMount, translatedTarget) ← resolve mounts table target
  let (linkMount, translatedLink) ← resolve mounts table linkPath
  rejectReadOnly mounts linkMount "mount is read-only" linkPath
  requireSame targetMount linkMount "cross-mount hard link is not supported" target linkPath
  forward targetMount (.createHardLink translatedTarget translatedLink)

def setPermissions (path : Path) (permissions : FilePermissions) (symlinkMode : SymlinkMode) : Task Unit :=
  forwardWriting mounts table path (.setPermissions · permissions symlinkMode)

def removeFile (path : Path) (options : RemoveOptions) : Task Unit :=
  forwardWriting mounts table path (.removeFile · options)

def removeDirectory (path : Path) (options : RemoveOptions) : Task Unit :=
  forwardWriting mounts table path (.removeDirectory · options)

def removeAll (path : Path) (options : RemoveOptions) : Task Nat :=
  forwardWriting mounts table path (.removeAll · options)

def rename (source destination : Path) : Task Unit := do
  let (sourceMount, sourcePath) ← resolve mounts table source
  let (destinationMount, destinationPath) ← resolve mounts table destination
  requireSame sourceMount destinationMount "cross-mount rename not supported" source destination
  rejectReadOnly mounts sourceMount "mount is read-only" source destination
  forward sourceMount (.rename sourcePath destinationPath)

def renameNoReplace (source destination : Path) : Task Unit := do
  let (sourceMount, sourcePath) ← resolve mounts table source
  let (destinationMount, destinationPath) ← resolve mounts table destination
  requireSame sourceMount destinationMount "cross-mount no-replace rename is not supported" source destination
  rejectReadOnly mounts destinationMount "mount is read-only" source destination
  forward sourceMount (.renameNoReplace sourcePath destinationPath)

def replaceFile (source destination : Path) (options : ReplaceOptions) : Task Unit := do
  let (sourceMount, sourcePath) ← resolve mounts table source
  let (destinationMount, destinationPath) ← resolve mounts table destination
  requireSame sourceMount destinationMount "cross-mount replace is not supported" source destination
  rejectReadOnly mounts destinationMount "destination mount is read-only" source destination
  forward sourceMount (.replaceFile sourcePath destinationPath options)

def copyFile (fuel : Nat) (source destination : Path) (options : CopyOptions) : Task Unit := do
  let (sourceMount, sourcePath) ← resolve mounts table source
  let (destinationMount, destinationPath) ← resolve mounts table destination
  rejectReadOnly mounts destinationMount "destination mount is read-only" source destination
  if sourceMount = destinationMount then
    forward sourceMount (.copyFile sourcePath destinationPath options)
  else copyAcrossFileSystems sourceMount destinationMount options fuel sourcePath destinationPath []

def move (fuel : Nat) (source destination : Path) (options : CopyOptions) : Task Unit := do
  let (sourceMount, sourcePath) ← resolve mounts table source
  let (destinationMount, destinationPath) ← resolve mounts table destination
  rejectReadOnly mounts destinationMount "destination mount is read-only" source destination
  if sourceMount = destinationMount then
    forward sourceMount (.move sourcePath destinationPath options)
  else
    rejectReadOnly mounts sourceMount "source mount is read-only" source destination
    copyFile mounts table fuel source destination options
    let sourceInfo : FileInfo ← forward sourceMount (.getInfo sourcePath { symlinkMode := .doNotFollow })
    if sourceInfo.type = .directory then
      forward sourceMount (.removeDirectory sourcePath { recursive := true })
    else forward sourceMount (.removeFile sourcePath {})

def openFile (path : Path) (options : FileOpenOptions) : Task FileHandle := do
  let (mount, translated) ← resolve mounts table path
  if options.access = .write ∨ options.access = .readWrite ∨ options.access = .append then
    rejectReadOnly mounts mount "mount is read-only" path
  forward mount (.openFile translated options)

def openFileView (path : Path) : Task FileView := forwardTo mounts table path .openFileView

def enumerate (path : Path) (options : EnumerateOptions) : Task DirectoryEnumerator :=
  forwardTo mounts table path (.enumerate · options)

def currentWorkingDirectory : Task Path := failure .unsupported "virtual cwd is not defined"

def setCurrentWorkingDirectory (path : Path) : Task Unit := failure .unsupported "virtual cwd is not supported" path

def tempDirectory : Task Path :=
  match table with
  | [] => failure .notFound "no mounts configured"
  | front :: _ => forward front .tempDirectory

/-- The first mount that may be written to and whose root can be translated. -/
def createTempAnywhere (call : Path → Call .path) : List MountId → Task Path
  | [] => failure .notFound "no writable mounts configured"
  | mount :: rest =>
    if readOnly mounts mount then createTempAnywhere call rest
    else
      match (mounts mount).translate (mounts mount).point.virtualPrefix with
      | .error _ => createTempAnywhere call rest
      | .ok translatedRoot => do
        let created : Path ← forward mount (call translatedRoot)
        virtualize mount created

def createTemp (directory : Path) (call : Path → Call .path) : Task Path :=
  if !directory.isEmpty then do
    let (mount, translated) ← resolve mounts table directory
    rejectReadOnly mounts mount "mount is read-only" directory
    let created : Path ← forward mount (call translated)
    virtualize mount created
  else createTempAnywhere mounts call table

def createTempDirectory (directory : Path) (start : Bytes) : Task Path :=
  createTemp mounts table directory (.createTempDirectory · start)

def createTempFile (directory : Path) (start : Bytes) : Task Path :=
  createTemp mounts table directory (.createTempFile · start)

def getSpaceInfo (path : Path) : Task SpaceInfo := forwardTo mounts table path .getSpaceInfo

end VirtualFileSystem

end NginBase.IO
