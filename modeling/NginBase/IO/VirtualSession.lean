import NginBase.IO.VirtualFileSystem

namespace NginBase.IO

open Library Library.Dialogue

namespace VirtualFileSystem

variable (mounts : MountId → Mount) (table : List MountId)

def openFileAsync (path : Path) (options : FileOpenOptions) : Task AsyncFileHandle := do
  let (mount, translated) ← resolve mounts table path
  requireAsync mounts mount "mount has no async filesystem" path
  forwardAsync mount (.openFile translated options)

def openDirectoryAsync (path : Path) : Task (MountId × AsyncDirectoryHandle) := do
  let (mount, translated) ← resolve mounts table path
  requireAsync mounts mount "mount has no async filesystem" path
  let handle : AsyncDirectoryHandle ← forwardAsync mount (.openDirectory translated)
  pure (mount, handle)

def getInfoAsync (path : Path) (options : MetadataOptions) : Task FileInfo := do
  let (mount, translated) ← resolve mounts table path
  requireAsync mounts mount "mount has no async filesystem" path
  let info : FileInfo ← forwardAsync mount (.getInfo translated options)
  pure { info with path }

def failIfCanceled : Task Unit := do
  let requested ← isCancellationRequested
  if requested then fail .canceled

def writeBufferAsync (destination : MountId) (file : AsyncFileHandle) (source_ destination_ : Path) :
    Nat → Bytes → Task Unit
  | 0, _ => pause
  | fuel + 1, data => do
    if data = [] then pure ()
    else
      let count : Nat ← forwardAsync destination (.write file data)
      if count = 0 then failure .endOfStream "zero-byte write during cross-mount async copy" source_ destination_
      else writeBufferAsync destination file source_ destination_ fuel (data.drop count)

def closeBoth (source destination : MountId) (input output : AsyncFileHandle) : Task Unit := do
  forwardAsync source (.close input)
  forwardAsync destination (.close output)

def copyContentAsync (source destination : MountId) (input output : AsyncFileHandle) (source_ destination_ : Path) :
    Nat → Task Unit
  | 0 => pause
  | fuel + 1 => do
    let requested ← isCancellationRequested
    if requested then
      closeBoth source destination input output
      fail .canceled
    else
      let data : Bytes ← forwardAsync source (.read input bufferSize)
      if data = [] then pure ()
      else
        writeBufferAsync destination output source_ destination_ fuel data
        copyContentAsync source destination input output source_ destination_ fuel

/-- The loop over the entries of a directory. Each round starts by looking for a request to cancel. -/
def copyEntriesAsync (source : MountId) (enumerator : DirectoryEnumerator) (copy : DirectoryEntry → Task Unit) :
    Nat → Task Unit
  | 0 => pause
  | fuel + 1 => do
    failIfCanceled
    let next : Option DirectoryEntry ← forward source (.next enumerator)
    match next with
    | none => pure ()
    | some entry => do
      copy entry
      copyEntriesAsync source enumerator copy fuel

def copyRegularFileAsync (fuel : Nat) (source destination : MountId) (sourcePath destinationPath : Path)
    (source_ destination_ : Path) (options : CopyOptions) (sourceInfo destinationInfo : FileInfo) : Task Unit := do
  let input : AsyncFileHandle ← forwardAsync source (.openFile sourcePath sourceOpen)
  let output : AsyncFileHandle ← forwardAsync destination (.openFile destinationPath (destinationOpen options))
  let copied : Task Unit := do
    copyContentAsync source destination input output source_ destination_ fuel
    closeBoth source destination input output
    keepPermissions destination options destinationPath sourceInfo
  copied.onFailure (copyCleanup destination destinationPath (!destinationInfo.exists_ && options.cleanupOnFailure))

def copyDirectoryAsync (copy : DirectoryEntry → Task Unit) (fuel : Nat) (source destination : MountId)
    (sourcePath destinationPath : Path) (source_ destination_ : Path) (options : CopyOptions)
    (sourceInfo destinationInfo : FileInfo) : Task Unit :=
  if !options.recursive then
    failure .notSupported "directory copy requires recursive option" source_ destination_
  else do
    let create ← clearDestination destination options destinationPath destinationInfo
      (failure .alreadyExists "destination exists" source_ destination_)
    let copied : Task Unit := do
      createMissing destination destinationPath create { ignoreIfExists := false }
      let enumerator : DirectoryEnumerator ← forward source (.enumerate sourcePath
        { includeFiles := true, includeDirectories := true, includeSymlinks := true })
      copyEntriesAsync source enumerator copy fuel
      keepPermissions destination options destinationPath sourceInfo
    copied.onFailure (copyCleanup destination destinationPath (create && options.cleanupOnFailure))

/-- `source_` and `destination_` are the virtual paths, the table is the one at the time of the call. -/
def copyFileAsync : Nat → List MountId → Path → Path → CopyOptions → Task Unit
  | 0, _, _, _, _ => pause
  | fuel + 1, table, source_, destination_, options => do
    let (source, sourcePath) ← resolve mounts table source_
    let (destination, destinationPath) ← resolve mounts table destination_
    rejectReadOnly mounts destination "destination mount is read-only" source_ destination_
    if source = destination then
      requireAsync mounts source "mount has no async filesystem" source_ destination_
      forwardAsync source (.copyFile sourcePath destinationPath options)
    else
      requireAsync mounts source "cross-mount copy requires async filesystems" source_ destination_
      requireAsync mounts destination "cross-mount copy requires async filesystems" source_ destination_
      let sourceInfo : FileInfo ← forward source (.getInfo sourcePath { symlinkMode := .doNotFollow })
      if !sourceInfo.exists_ then failure .notFound "source not found" source_ destination_
      else
        failIfCanceled
        if sourceInfo.type = .symlink then copyFile mounts table fuel source_ destination_ options
        else
          let destinationInfo : FileInfo ← forward destination (.getInfo destinationPath { symlinkMode := .doNotFollow })
          if sourceInfo.type = .directory then
            let copy (entry : DirectoryEntry) : Task Unit := do
              -- the table may have changed while this task was suspended
              let current ← currentMounts
              copyFileAsync fuel current (source_.join entry.name.view) (destination_.join entry.name.view) options
            copyDirectoryAsync copy fuel source destination sourcePath destinationPath source_ destination_ options
              sourceInfo destinationInfo
          else if sourceInfo.type ≠ .file then
            failure .notSupported "cross-mount async copy is unsupported for this entry type" source_ destination_
          else
            copyRegularFileAsync fuel source destination sourcePath destinationPath source_ destination_ options
              sourceInfo destinationInfo

structure VirtualDirectoryHandle where
  path : Path

def normalizeRelativeHandlePath (path : Path) : Except IOError Path :=
  let normalized := path.lexicallyNormal
  if normalized.isAbsolute then .error (makeError .invalidPath "directory handle path must be relative" path)
  else if normalized.isEmpty then .ok ⟨Path.dot⟩
  else if normalized.startsWith ⟨Path.dotDot⟩ then
    .error (makeError .invalidPath "directory handle path escapes handle root" path)
  else .ok normalized

def joinHandlePath (base relativePath : Path) : Path :=
  if relativePath.view = Path.dot then base else (base.join relativePath.view).lexicallyNormal

def openDirectory (path : Path) : Task VirtualDirectoryHandle := do
  let info ← getInfo mounts table path {}
  if !info.exists_ then failure .notFound "directory not found" path
  else if info.type ≠ .directory then failure .notDirectory "path is not a directory" path
  else pure ⟨path.lexicallyNormal⟩

namespace VirtualDirectoryHandle

variable (handle : VirtualDirectoryHandle)

def target (path : Path) : Task Path := do
  let normalized ← ofResult (normalizeRelativeHandlePath path)
  pure (joinHandlePath handle.path normalized)

def exists_ (path : Path) : Task Bool := do
  let path ← handle.target path
  VirtualFileSystem.exists_ mounts table path

def getInfo (path : Path) (options : MetadataOptions) : Task FileInfo := do
  let path ← handle.target path
  VirtualFileSystem.getInfo mounts table path options

def openFile (path : Path) (options : FileOpenOptions) : Task FileHandle := do
  let path ← handle.target path
  VirtualFileSystem.openFile mounts table path options

def openDirectory (path : Path) : Task VirtualDirectoryHandle := do
  let path ← handle.target path
  VirtualFileSystem.openDirectory mounts table path

def createDirectory (path : Path) (options : DirectoryCreateOptions) : Task Unit := do
  let path ← handle.target path
  if options.recursive then createDirectories mounts table path options
  else VirtualFileSystem.createDirectory mounts table path options

def removeFile (path : Path) (options : RemoveOptions) : Task Unit := do
  let path ← handle.target path
  VirtualFileSystem.removeFile mounts table path options

def removeDirectory (path : Path) (options : RemoveOptions) : Task Unit := do
  let path ← handle.target path
  VirtualFileSystem.removeDirectory mounts table path options

def readSymlink (path : Path) : Task Path := do
  let path ← handle.target path
  VirtualFileSystem.readSymlink mounts table path

end VirtualDirectoryHandle

inductive Value
  | plain (kind : Kind) (value : kind.Carrier)
  | directory (handle : VirtualDirectoryHandle)
  | asyncDirectory (mount : MountId) (handle : AsyncDirectoryHandle)

inductive Operation
  | getCapabilities
  | exists_ (path : Path)
  | getInfo (path : Path) (options : MetadataOptions)
  | absolute (path base : Path)
  | canonical (path : Path)
  | weaklyCanonical (path : Path)
  | sameFile (lhs rhs : Path)
  | readSymlink (path : Path)
  | createDirectory (path : Path) (options : DirectoryCreateOptions)
  | createDirectories (path : Path) (options : DirectoryCreateOptions)
  | createSymlink (target linkPath : Path)
  | createHardLink (target linkPath : Path)
  | setPermissions (path : Path) (permissions : FilePermissions) (symlinkMode : SymlinkMode)
  | removeFile (path : Path) (options : RemoveOptions)
  | removeDirectory (path : Path) (options : RemoveOptions)
  | removeAll (path : Path) (options : RemoveOptions)
  | rename (source destination : Path)
  | renameNoReplace (source destination : Path)
  | replaceFile (source destination : Path) (options : ReplaceOptions)
  | copyFile (source destination : Path) (options : CopyOptions)
  | move (source destination : Path) (options : CopyOptions)
  | openFile (path : Path) (options : FileOpenOptions)
  | openDirectory (path : Path)
  | openFileView (path : Path)
  | enumerate (path : Path) (options : EnumerateOptions)
  | currentWorkingDirectory
  | setCurrentWorkingDirectory (path : Path)
  | tempDirectory
  | createTempDirectory (directory : Path) (start : Bytes)
  | createTempFile (directory : Path) (start : Bytes)
  | getSpaceInfo (path : Path)
  | openFileAsync (path : Path) (options : FileOpenOptions)
  | openDirectoryAsync (path : Path)
  | getInfoAsync (path : Path) (options : MetadataOptions)
  | copyFileAsync (source destination : Path) (options : CopyOptions)
  | existsIn (handle : VirtualDirectoryHandle) (path : Path)
  | getInfoIn (handle : VirtualDirectoryHandle) (path : Path) (options : MetadataOptions)
  | openFileIn (handle : VirtualDirectoryHandle) (path : Path) (options : FileOpenOptions)
  | openDirectoryIn (handle : VirtualDirectoryHandle) (path : Path)
  | createDirectoryIn (handle : VirtualDirectoryHandle) (path : Path) (options : DirectoryCreateOptions)
  | removeFileIn (handle : VirtualDirectoryHandle) (path : Path) (options : RemoveOptions)
  | removeDirectoryIn (handle : VirtualDirectoryHandle) (path : Path) (options : RemoveOptions)
  | readSymlinkIn (handle : VirtualDirectoryHandle) (path : Path)
  | existsAsyncIn (mount : MountId) (handle : AsyncDirectoryHandle) (path : Path)
  | getInfoAsyncIn (mount : MountId) (handle : AsyncDirectoryHandle) (path : Path) (options : MetadataOptions)
  | openFileAsyncIn (mount : MountId) (handle : AsyncDirectoryHandle) (path : Path) (options : FileOpenOptions)
  | openDirectoryAsyncIn (mount : MountId) (handle : AsyncDirectoryHandle) (path : Path)
  | readSymlinkAsyncIn (mount : MountId) (handle : AsyncDirectoryHandle) (path : Path)

def Operation.handle : Operation → Option Value
  | existsIn handle _ | getInfoIn handle _ _ | openFileIn handle _ _ | openDirectoryIn handle _
  | createDirectoryIn handle _ _ | removeFileIn handle _ _ | removeDirectoryIn handle _ _ | readSymlinkIn handle _ =>
    some (.directory handle)
  | existsAsyncIn mount handle _ | getInfoAsyncIn mount handle _ _ | openFileAsyncIn mount handle _ _
  | openDirectoryAsyncIn mount handle _ | readSymlinkAsyncIn mount handle _ => some (.asyncDirectory mount handle)
  | _ => none

def keep (kind : Kind) (task : Task kind.Carrier) : Task Value := do
  let value ← task
  pure (.plain kind value)

def keepDirectory (task : Task VirtualDirectoryHandle) : Task Value := do
  let handle ← task
  pure (.directory handle)

def keepAsyncDirectory (task : Task (MountId × AsyncDirectoryHandle)) : Task Value := do
  let (mount, handle) ← task
  pure (.asyncDirectory mount handle)

/-- The task that an operation starts, followed for `fuel` rounds of each of its loops. -/
def perform (fuel : Nat) : Operation → Task Value
  | .getCapabilities => keep .capabilities (getCapabilities table)
  | .exists_ path => keep .truth (exists_ mounts table path)
  | .getInfo path options => keep .info (getInfo mounts table path options)
  | .absolute path base => keep .path (absolute path base)
  | .canonical path => keep .path (canonical mounts table path)
  | .weaklyCanonical path => keep .path (weaklyCanonical mounts table path)
  | .sameFile lhs rhs => keep .truth (sameFile mounts table lhs rhs)
  | .readSymlink path => keep .path (readSymlink mounts table path)
  | .createDirectory path options => keep .nothing (createDirectory mounts table path options)
  | .createDirectories path options => keep .nothing (createDirectories mounts table path options)
  | .createSymlink target linkPath => keep .nothing (createSymlink mounts table target linkPath)
  | .createHardLink target linkPath => keep .nothing (createHardLink mounts table target linkPath)
  | .setPermissions path permissions mode => keep .nothing (setPermissions mounts table path permissions mode)
  | .removeFile path options => keep .nothing (removeFile mounts table path options)
  | .removeDirectory path options => keep .nothing (removeDirectory mounts table path options)
  | .removeAll path options => keep .number (removeAll mounts table path options)
  | .rename source destination => keep .nothing (rename mounts table source destination)
  | .renameNoReplace source destination => keep .nothing (renameNoReplace mounts table source destination)
  | .replaceFile source destination options => keep .nothing (replaceFile mounts table source destination options)
  | .copyFile source destination options => keep .nothing (copyFile mounts table fuel source destination options)
  | .move source destination options => keep .nothing (move mounts table fuel source destination options)
  | .openFile path options => keep .file (openFile mounts table path options)
  | .openDirectory path => keepDirectory (openDirectory mounts table path)
  | .openFileView path => keep .view (openFileView mounts table path)
  | .enumerate path options => keep .enumerator (enumerate mounts table path options)
  | .currentWorkingDirectory => keep .path currentWorkingDirectory
  | .setCurrentWorkingDirectory path => keep .nothing (setCurrentWorkingDirectory path)
  | .tempDirectory => keep .path (tempDirectory table)
  | .createTempDirectory directory start => keep .path (createTempDirectory mounts table directory start)
  | .createTempFile directory start => keep .path (createTempFile mounts table directory start)
  | .getSpaceInfo path => keep .space (getSpaceInfo mounts table path)
  | .openFileAsync path options => keep .asyncFile (openFileAsync mounts table path options)
  | .openDirectoryAsync path => keepAsyncDirectory (openDirectoryAsync mounts table path)
  | .getInfoAsync path options => keep .info (getInfoAsync mounts table path options)
  | .copyFileAsync source destination options => keep .nothing (copyFileAsync mounts fuel table source destination options)
  | .existsIn handle path => keep .truth (handle.exists_ mounts table path)
  | .getInfoIn handle path options => keep .info (handle.getInfo mounts table path options)
  | .openFileIn handle path options => keep .file (handle.openFile mounts table path options)
  | .openDirectoryIn handle path => keepDirectory (handle.openDirectory mounts table path)
  | .createDirectoryIn handle path options => keep .nothing (handle.createDirectory mounts table path options)
  | .removeFileIn handle path options => keep .nothing (handle.removeFile mounts table path options)
  | .removeDirectoryIn handle path options => keep .nothing (handle.removeDirectory mounts table path options)
  | .readSymlinkIn handle path => keep .path (handle.readSymlink mounts table path)
  | .existsAsyncIn mount handle path => keep .truth (forwardAsync mount (.existsIn handle path))
  | .getInfoAsyncIn mount handle path options => keep .info (forwardAsync mount (.getInfoIn handle path options))
  | .openFileAsyncIn mount handle path options => keep .asyncFile (forwardAsync mount (.openFileIn handle path options))
  | .openDirectoryAsyncIn mount handle path => keepAsyncDirectory do
    let opened : AsyncDirectoryHandle ← forwardAsync mount (.openDirectoryIn handle path)
    pure (mount, opened)
  | .readSymlinkAsyncIn mount handle path => keep .path (forwardAsync mount (.readSymlinkIn handle path))

/-- A file system with the operations under way, the values returned so far and every call that it has forwarded. -/
structure Session where
  table : List MountId := []
  tasks : List (Task Value) := []
  returned : List Value := []
  asked : List Question := []

def Session.Answers (session : Session) : (question : Question) → Answer question → Prop
  | .mounts, answer => answer = session.table
  | _, _ => True

/-- One step of a session. The tasks that are under way advance in any order. `admitted` restricts what is started. -/
inductive Session.Step (admitted : List MountId → Operation → Prop) : Session → Session → Prop
  -- the sort leaves a permutation in which no mount precedes one that compares less
  | addMount (session : Session) (mount : MountId) (table : List MountId)
      (permutation : table.Perm (session.table ++ [mount]))
      (sorted : table.Pairwise fun a b => ¬ prefixCompare (mounts b).point (mounts a).point) :
      Session.Step admitted session { session with table }
  | clearMounts (session : Session) : Session.Step admitted session { session with table := [] }
  | start (session : Session) (operation : Operation) (fuel : Nat)
      (held : ∀ handle ∈ operation.handle, handle ∈ session.returned) (admits : admitted session.table operation) :
      Session.Step admitted session
        { session with tasks := session.tasks ++ [perform mounts session.table fuel operation] }
  | advance (session : Session) (before after : List (Task Value)) (question : Question)
      (resume : Answer question → Task Value) (answer : Answer question)
      (tasks : session.tasks = before ++ .ask question resume :: after) (answers : session.Answers question answer) :
      Session.Step admitted session
        { session with tasks := before ++ resume answer :: after, asked := session.asked ++ [question] }
  | finish (session : Session) (before after : List (Task Value)) (result : Except Failure Value)
      (tasks : session.tasks = before ++ .done result :: after) :
      Session.Step admitted session
        { session with tasks := before ++ after, returned := session.returned ++ result.toOption.toList }

def Session.Reached (admitted : List MountId → Operation → Prop) (session : Session) : Prop :=
  Relation.ReflTransGen (Session.Step mounts admitted) {} session

end VirtualFileSystem

end NginBase.IO
