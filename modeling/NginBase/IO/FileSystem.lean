import NginBase.IO.Path

namespace NginBase.IO

inductive IOErrorCode
  | none | endOfStream | invalidArgument | systemError | notSupported | notFound | alreadyExists | permissionDenied
  | pathTooLong | invalidPath | isDirectory | notDirectory | directoryNotEmpty | wouldBlock | canceled | busy
  | crossDevice | unsupported | corruptData
deriving DecidableEq

structure IOError where
  code : IOErrorCode
  systemCode : Int := 0
  path : Path := ⟨[]⟩
  secondaryPath : Path := ⟨[]⟩
  message : String := ""
deriving DecidableEq

def makeError (code : IOErrorCode) (message : String) (path : Path := ⟨[]⟩) (secondary : Path := ⟨[]⟩) : IOError :=
  { code, path, secondaryPath := secondary, message }

inductive EntryType
  | unknown | file | directory | symlink | blockDevice | characterDevice | fifo | socket | other
deriving DecidableEq

inductive SymlinkMode
  | doNotFollow | follow
deriving DecidableEq

inductive FileAccess
  | read | write | readWrite | append
deriving DecidableEq

inductive FileCreateDisposition
  | openExisting | createAlways | createNew | openAlways | truncateExisting
deriving DecidableEq

structure FileShare where
  read : Bool := true
  write : Bool := false
  delete : Bool := false

structure FileOpenFlags where
  sequential : Bool := false
  randomAccess : Bool := false
  writeThrough : Bool := false
  temporary : Bool := false
  deleteOnClose : Bool := false
  asyncPreferred : Bool := false

structure FileOpenOptions where
  access : FileAccess := .read
  share : FileShare := {}
  disposition : FileCreateDisposition := .openExisting
  flags : FileOpenFlags := {}

inductive CopySymlinkMode
  | preserve | follow | reject
deriving DecidableEq

structure CopyOptions where
  overwriteExisting : Bool := false
  recursive : Bool := false
  symlinks : CopySymlinkMode := .preserve
  preservePermissions : Bool := true
  cleanupOnFailure : Bool := true

structure ReplaceOptions where
  flushSource : Bool := false
  flushParentDirectory : Bool := false

structure RemoveOptions where
  recursive : Bool := false
  ignoreMissing : Bool := false

structure DirectoryCreateOptions where
  recursive : Bool := false
  ignoreIfExists : Bool := true

inductive DirectorySortOrder
  | unspecified | lexicalPath | lexicalName

structure EnumerateOptions where
  recursive : Bool := false
  includeFiles : Bool := true
  includeDirectories : Bool := true
  includeSymlinks : Bool := false
  followSymlinks : Bool := false
  populateInfo : Bool := false
  sortOrder : DirectorySortOrder := .unspecified

structure MetadataOptions where
  symlinkMode : SymlinkMode := .doNotFollow

structure FilePermissions where
  nativeBits : Nat := 0
  readable : Bool := false
  writable : Bool := false
  executable : Bool := false
  setUserId : Bool := false
  setGroupId : Bool := false
  sticky : Bool := false

structure FileIdentity where
  device : Nat := 0
  inode : Nat := 0
  hardLinkCount : Nat := 0
  valid : Bool := false
deriving DecidableEq

/-- `FileInfo` without its times and ownership, which no function here reads. -/
structure FileInfo where
  path : Path := ⟨[]⟩
  type : EntryType := .unknown
  size : Nat := 0
  permissions : FilePermissions := {}
  identity : FileIdentity := {}
  exists_ : Bool := false
  symlinkTargetExists : Bool := false

structure SpaceInfo where
  capacity : Nat := 0
  free : Nat := 0
  available : Nat := 0

structure DirectoryEntry where
  path : Path
  name : Path
  type : EntryType := .unknown
  info : Option FileInfo := none

inductive Feature
  | symlinks | hardLinks | blockDevices | characterDevices | fifos | sockets | posixModeBits | ownership | setIdBits
  | stickyBit | fileIdentity | hardLinkCount | memoryMappedFiles | nanosecondTimestamps | metadataNoFollow
  | atomicRenameNoReplace | atomicReplace | durableReplace

def FileSystemCapabilities : Type := Feature → Bool

def intersectCapabilities (lhs rhs : FileSystemCapabilities) : FileSystemCapabilities := fun feature =>
  lhs feature && rhs feature

/-! An object that a backend hands out is known by the number the backend gives it. -/

structure FileHandle where
  number : Nat
deriving DecidableEq

structure FileView where
  number : Nat

structure DirectoryEnumerator where
  number : Nat
deriving DecidableEq

structure AsyncFileHandle where
  number : Nat

structure AsyncDirectoryHandle where
  number : Nat

inductive Kind
  | nothing | truth | number | bytes | path | info | space | capabilities | entry | file | view | enumerator
  | asyncFile | asyncDirectory

@[reducible] def Kind.Carrier : Kind → Type
  | nothing => Unit
  | truth => Bool
  | number => Nat
  | bytes => Bytes
  | path => Path
  | info => FileInfo
  | space => SpaceInfo
  | capabilities => FileSystemCapabilities
  | entry => Option DirectoryEntry
  | file => FileHandle
  | view => FileView
  | enumerator => DirectoryEnumerator
  | asyncFile => AsyncFileHandle
  | asyncDirectory => AsyncDirectoryHandle

/-- Calls of a synchronous file system and of the objects it has handed out. -/
inductive Call : Kind → Type
  | getCapabilities : Call .capabilities
  | exists_ (path : Path) : Call .truth
  | getInfo (path : Path) (options : MetadataOptions) : Call .info
  | canonical (path : Path) : Call .path
  | weaklyCanonical (path : Path) : Call .path
  | sameFile (lhs rhs : Path) : Call .truth
  | readSymlink (path : Path) : Call .path
  | createDirectory (path : Path) (options : DirectoryCreateOptions) : Call .nothing
  | createDirectories (path : Path) (options : DirectoryCreateOptions) : Call .nothing
  | createSymlink (target linkPath : Path) : Call .nothing
  | createHardLink (target linkPath : Path) : Call .nothing
  | setPermissions (path : Path) (permissions : FilePermissions) (symlinkMode : SymlinkMode) : Call .nothing
  | removeFile (path : Path) (options : RemoveOptions) : Call .nothing
  | removeDirectory (path : Path) (options : RemoveOptions) : Call .nothing
  | removeAll (path : Path) (options : RemoveOptions) : Call .number
  | rename (source destination : Path) : Call .nothing
  | renameNoReplace (source destination : Path) : Call .nothing
  | replaceFile (source destination : Path) (options : ReplaceOptions) : Call .nothing
  | copyFile (source destination : Path) (options : CopyOptions) : Call .nothing
  | move (source destination : Path) (options : CopyOptions) : Call .nothing
  | openFile (path : Path) (options : FileOpenOptions) : Call .file
  | openFileView (path : Path) : Call .view
  | enumerate (path : Path) (options : EnumerateOptions) : Call .enumerator
  | tempDirectory : Call .path
  | createTempDirectory (directory : Path) (start : Bytes) : Call .path
  | createTempFile (directory : Path) (start : Bytes) : Call .path
  | getSpaceInfo (path : Path) : Call .space
  | next (enumerator : DirectoryEnumerator) : Call .entry
  | read (file : FileHandle) (size : Nat) : Call .bytes
  | write (file : FileHandle) (data : Bytes) : Call .number
  | close (file : FileHandle) : Call .nothing

/-- Calls of an asynchronous file system and of the objects it has handed out. -/
inductive AsyncCall : Kind → Type
  | openFile (path : Path) (options : FileOpenOptions) : AsyncCall .asyncFile
  | openDirectory (path : Path) : AsyncCall .asyncDirectory
  | getInfo (path : Path) (options : MetadataOptions) : AsyncCall .info
  | copyFile (source destination : Path) (options : CopyOptions) : AsyncCall .nothing
  | read (file : AsyncFileHandle) (size : Nat) : AsyncCall .bytes
  | write (file : AsyncFileHandle) (data : Bytes) : AsyncCall .number
  | close (file : AsyncFileHandle) : AsyncCall .nothing
  | existsIn (directory : AsyncDirectoryHandle) (path : Path) : AsyncCall .truth
  | getInfoIn (directory : AsyncDirectoryHandle) (path : Path) (options : MetadataOptions) : AsyncCall .info
  | openFileIn (directory : AsyncDirectoryHandle) (path : Path) (options : FileOpenOptions) : AsyncCall .asyncFile
  | openDirectoryIn (directory : AsyncDirectoryHandle) (path : Path) : AsyncCall .asyncDirectory
  | readSymlinkIn (directory : AsyncDirectoryHandle) (path : Path) : AsyncCall .path

def FileAccess.writes : FileAccess → Bool
  | .read => false
  | .write | .readWrite | .append => true

def FileOpenOptions.mutates (options : FileOpenOptions) : Bool :=
  options.access.writes || options.disposition != .openExisting || options.flags.deleteOnClose

def Call.mutates {kind : Kind} : Call kind → Bool
  | getCapabilities | exists_ _ | getInfo _ _ | canonical _ | weaklyCanonical _ | sameFile _ _ | readSymlink _ => false
  | createDirectory _ _ | createDirectories _ _ | createSymlink _ _ | createHardLink _ _ | setPermissions _ _ _ => true
  | removeFile _ _ | removeDirectory _ _ | removeAll _ _ => true
  | rename _ _ | renameNoReplace _ _ | replaceFile _ _ _ | copyFile _ _ _ | move _ _ _ => true
  | openFile _ options => options.mutates
  | openFileView _ | enumerate _ _ | tempDirectory => false
  | createTempDirectory _ _ | createTempFile _ _ => true
  | getSpaceInfo _ | next _ | read _ _ => false
  | write _ _ => true
  | close _ => false

def AsyncCall.mutates {kind : Kind} : AsyncCall kind → Bool
  | openFile _ options | openFileIn _ _ options => options.mutates
  | openDirectory _ | openDirectoryIn _ _ | getInfo _ _ | getInfoIn _ _ _ => false
  | copyFile _ _ _ | write _ _ => true
  | read _ _ | close _ | existsIn _ _ | readSymlinkIn _ _ => false

end NginBase.IO
