import NginBase.IO.CopyCleanup

namespace NginBase.IO

/-! What a local file system does to the one disk that all local mounts lie on. -/

inductive SpecialFile
  | blockDevice | characterDevice | fifo | socket
deriving DecidableEq

def SpecialFile.type : SpecialFile → EntryType
  | blockDevice => .blockDevice
  | characterDevice => .characterDevice
  | fifo => .fifo
  | socket => .socket

/-- What stands under a name. Regular files are known by their inodes, and may stand under several names. -/
inductive Node (Inode : Type)
  | file (inode : Inode)
  | directory
  | special (kind : SpecialFile)
deriving DecidableEq

def Node.type {Inode : Type} : Node Inode → EntryType
  | file _ => .file
  | directory => .directory
  | special kind => kind.type

/-- The directories and symbolic links of a disk: a path leads to a name in a directory, if the directories on its way
    exist, and a link leads on to a name that is no link, if it leads anywhere. -/
structure Layout (Name : Type) where
  name : Path → Option Name
  link : Name → Option (Option Name)
  resolved : ∀ x y, link x = some (some y) → link y = none

structure Stream (Inode : Type) where
  inode : Option Inode
  position : Nat := 0

structure Disk (Name Inode : Type) where
  nodes : Name → Option (Node Inode)
  content : Inode → Bytes
  streams : FileHandle → Option (Stream Inode) := fun _ => none
  handles : Nat := 0

variable {Name Inode : Type}

namespace Layout

variable (layout : Layout Name)

def target (path : Path) : Option Name :=
  (layout.name path).bind fun x =>
    match layout.link x with
    | none => some x
    | some end_ => end_

theorem target_plain {path : Path} {x : Name} (named : layout.name path = some x) (plain : layout.link x = none) :
    layout.target path = some x := by
  simp [target, named, plain]

end Layout

namespace Disk

variable (layout : Layout Name)

def entry (s : Disk Name Inode) (path : Path) : Option EntryType :=
  (layout.name path).bind fun x =>
    match layout.link x with
    | none => (s.nodes x).map Node.type
    | some _ => some .symlink

theorem named_of_entry_none {s : Disk Name Inode} {path : Path} {x : Name} (target : layout.target path = some x)
    (nothing : s.entry layout path = none) : layout.name path = some x ∧ layout.link x = none := by
  unfold Layout.target at target
  unfold entry at nothing
  cases named : layout.name path with
  | none => simp [named] at target
  | some z =>
    rw [named] at nothing target
    cases linked : layout.link z with
    | none =>
      simp only [Option.bind_some, linked, Option.some.injEq] at target
      subst target
      exact ⟨rfl, linked⟩
    | some end_ => simp [linked] at nothing

def IsFile (s : Disk Name Inode) (path : Path) (content : Bytes) : Prop :=
  ∃ x inode, layout.target path = some x ∧ s.nodes x = some (.file inode) ∧ s.content inode = content

variable [DecidableEq Name] [DecidableEq Inode]

def setNode (s : Disk Name Inode) (x : Name) (node : Option (Node Inode)) : Disk Name Inode :=
  { s with nodes := Function.update s.nodes x node }

theorem setNode_self (s : Disk Name Inode) (x : Name) (node : Option (Node Inode)) : (s.setNode x node).nodes x = node :=
  Function.update_self _ _ _

def setContent (s : Disk Name Inode) (inode : Inode) (content : Bytes) : Disk Name Inode :=
  { s with content := Function.update s.content inode content }

def setStream (s : Disk Name Inode) (file : FileHandle) (stream : Option (Stream Inode)) : Disk Name Inode :=
  { s with streams := Function.update s.streams file stream }

def opened (s : Disk Name Inode) (inode : Option Inode) : Disk Name Inode :=
  { s.setStream ⟨s.handles⟩ (some { inode }) with handles := s.handles + 1 }

def Unused (s : Disk Name Inode) (inode : Inode) : Prop :=
  (∀ x, s.nodes x ≠ some (.file inode)) ∧ ∀ file stream, s.streams file = some stream → stream.inode ≠ some inode

def Creates (s : Disk Name Inode) (x : Name) (s' : Disk Name Inode) : Prop :=
  s.nodes x = none ∧ ∃ inode, s.Unused inode ∧
    s' = ((s.setNode x (some (.file inode))).setContent inode []).opened (some inode)

/-- `open` with the disposition's flags. A directory is not written to, and a socket is not opened. -/
def Opens (s : Disk Name Inode) (path : Path) (options : FileOpenOptions) (s' : Disk Name Inode) : Prop :=
  match options.disposition with
  | .openExisting => ∃ x, layout.target path = some x ∧
    ((∃ inode, s.nodes x = some (.file inode) ∧ s' = s.opened (some inode)) ∨
      (s.nodes x = some .directory ∧ options.access = .read ∧ s' = s.opened none) ∨
      ∃ kind, s.nodes x = some (.special kind) ∧ kind ≠ .socket ∧ s' = s.opened none)
  | .createAlways => ∃ x, layout.target path = some x ∧
    (s.Creates x s' ∨
      (∃ inode, s.nodes x = some (.file inode) ∧ s' = (s.setContent inode []).opened (some inode)) ∨
      ∃ kind, s.nodes x = some (.special kind) ∧ kind ≠ .socket ∧ s' = s.opened none)
  | .createNew => ∃ x, layout.name path = some x ∧ layout.link x = none ∧ s.Creates x s'
  | .openAlways | .truncateExisting => True

def advance (s : Disk Name Inode) (file : FileHandle) (stream : Stream Inode) (count : Nat) : Disk Name Inode :=
  s.setStream file (some { stream with position := stream.position + count })

def overwrite (content : Bytes) (position : Nat) (data : Bytes) : Bytes :=
  content.take position ++ List.replicate (position - content.length) 0 ++ data ++ content.drop (position + data.length)

/-- `read`: some of the bytes that follow, at the end none. -/
def Reads (s : Disk Name Inode) (file : FileHandle) (size : Nat) (data : Bytes) (s' : Disk Name Inode) : Prop :=
  ∃ stream, s.streams file = some stream ∧ data.length ≤ size ∧
    (∀ inode, stream.inode = some inode → data <+: (s.content inode).drop stream.position ∧
      (data = [] → size = 0 ∨ (s.content inode).length ≤ stream.position)) ∧
    s' = s.advance file stream data.length

def Writes (s : Disk Name Inode) (file : FileHandle) (data : Bytes) (count : Nat) (s' : Disk Name Inode) : Prop :=
  ∃ stream, s.streams file = some stream ∧ count ≤ data.length ∧
    match stream.inode with
    | some inode =>
      s' = (s.setContent inode (overwrite (s.content inode) stream.position (data.take count))).advance file stream count
    | none => s' = s.advance file stream count

/-- `unlink`, which does not remove directories. Of a disk from which a symbolic link is gone nothing is said. -/
def Unlinks (s : Disk Name Inode) (path : Path) (options : RemoveOptions) (s' : Disk Name Inode) : Prop :=
  (∃ x, layout.name path = some x ∧ (layout.link x = none → s.nodes x ≠ none ∧ s.nodes x ≠ some .directory ∧
    s' = s.setNode x none)) ∨
  options.ignoreMissing = true ∧ s.entry layout path = none ∧ s' = s

/-- The calls of a local file system on the disk. Each may fail, and then does nothing. -/
def Does (s : Disk Name Inode) : (kind : Kind) → (call : Call kind) → Except IOError kind.Carrier → Disk Name Inode → Prop
  | _, .close file, _, s' => s' = s.setStream file none
  | _, .getInfo path { symlinkMode := .doNotFollow }, .ok info, s' =>
    s' = s ∧ info.exists_ = (s.entry layout path).isSome ∧ ∀ type, s.entry layout path = some type → info.type = type
  | _, .openFile path options, .ok file, s' => file = ⟨s.handles⟩ ∧ s.Opens layout path options s'
  | _, .read file size, .ok data, s' => s.Reads file size data s'
  | _, .write file data, .ok count, s' => s.Writes file data count s'
  | _, .setPermissions _ _ _, .ok _, s' => s' = s
  | _, .removeFile path options, .ok _, s' => s.Unlinks layout path options s'
  | _, call, .ok _, s' => call.mutates = false → s' = s
  | _, _, .error _, s' => s' = s

def Answers (s : Disk Name Inode) : (question : Question) → Answer question → Disk Name Inode → Prop
  | .call _ kind call, answer, s' => s.Does layout kind call answer s'
  | _, _, s' => s' = s

end Disk

end NginBase.IO
