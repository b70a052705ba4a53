import NginBase.IO.FileSystem
import NginBase.Library.Dialogue

namespace NginBase.IO

open Library Library.Dialogue

section

inductive FileCall : Kind → Type
  | openFile (path : Path) (options : FileOpenOptions) : FileCall .file
  | size (file : FileHandle) : FileCall .number
  | read (file : FileHandle) (size : Nat) : FileCall .bytes
  | write (file : FileHandle) (data : Bytes) : FileCall .number
  | flush (file : FileHandle) : FileCall .nothing
  | close (file : FileHandle) : FileCall .nothing
  | createDirectories (path : Path) (options : DirectoryCreateOptions) : FileCall .nothing
  | replaceFile (source destination : Path) : FileCall .nothing
  | removeFile (path : Path) (options : RemoveOptions) : FileCall .nothing

structure FileQuestion where
  kind : Kind
  call : FileCall kind

@[reducible] def FileAnswer (question : FileQuestion) : Type := Except IOError question.kind.Carrier

abbrev FileTask := Dialogue FileQuestion FileAnswer IOError

variable {α : Type} {kind : Kind}

def ofAnswer : Except IOError α → FileTask α
  | .ok a => pure a
  | .error e => fail e

def perform (call : FileCall kind) : FileTask kind.Carrier := ask ⟨kind, call⟩ ofAnswer

def ignore (call : FileCall kind) : FileTask Unit := do
  let _ ← (perform call).attempt

end

def writeAllBytesToOpenFile (file : FileHandle) (path : Path) : Nat → Bytes → FileTask Unit
  | _, [] => pure ()
  | 0, _ :: _ => pause
  | fuel + 1, bytes => do
    let n : Nat ← perform (.write file bytes)
    if n = 0 then fail (makeError .systemError "short write" path)
    else writeAllBytesToOpenFile file path fuel (bytes.drop n)

def readLoop (file : FileHandle) : Nat → Bytes → FileTask Bytes
  | 0, _ => pause
  | fuel + 1, bytes => do
    let temp : Bytes ← perform (.read file (64 * 1024))
    if temp = [] then pure bytes else readLoop file fuel (bytes ++ temp)

def readAllBytes (fuel : Nat) (path : Path) : FileTask Bytes := do
  let file ← perform (.openFile path { access := .read, disposition := .openExisting })
  let _ ← perform (.size file)
  readLoop file fuel []

def writeAllBytes (path : Path) (bytes : Bytes) : FileTask Unit := do
  let file ← perform (.openFile path { access := .write, disposition := .createAlways })
  writeAllBytesToOpenFile file path bytes.length bytes
  perform (.flush file)

def writeAllText (path : Path) (text : Bytes) : FileTask Unit := writeAllBytes path text

def appendAllText (path : Path) (text : Bytes) : FileTask Unit := do
  let file ← perform (.openFile path { access := .append, disposition := .openAlways })
  let _ ← perform (.write file text)
  perform (.flush file)

def ensureDirectory (path : Path) : FileTask Unit :=
  perform (.createDirectories path { recursive := true, ignoreIfExists := true })

structure AtomicWriteOptions where
  createParentDirectories : Bool := false
  bestEffortDurable : Bool := true
  /-- `.ngin-tmp-` -/
  tempPrefix : Bytes := [0x2E, 0x6E, 0x67, 0x69, 0x6E, 0x2D, 0x74, 0x6D, 0x70, 0x2D]

def toDecimal (n : Nat) : Bytes := (Nat.toDigits 10 n).map fun c => c.toNat.toUInt8

def atomicTempName (path : Path) (options : AtomicWriteOptions) (uniqueValue attempt : Nat) : Bytes :=
  let filename := path.filename
  options.tempPrefix ++ (if filename = [] then [0x66, 0x69, 0x6C, 0x65] else filename) ++ [0x2E] ++ toDecimal uniqueValue ++
    [0x2E] ++ toDecimal attempt

def makeAtomicTempPath (path : Path) (options : AtomicWriteOptions) (uniqueValue attempt : Nat) : Path :=
  let name := atomicTempName path options uniqueValue attempt
  if path.parent.isEmpty then ⟨name⟩ else path.parent.join name

def closeOpen : Option FileHandle → FileTask Unit
  | some file => ignore (.close file)
  | none => pure ()

def discard (file : Option FileHandle) (tempPath : Path) (e : IOError) : FileTask Unit := do
  closeOpen file
  ignore (.removeFile tempPath { ignoreMissing := true })
  fail e

def flushDurably (options : AtomicWriteOptions) (file : FileHandle) : FileTask Unit :=
  if options.bestEffortDurable then perform (.flush file) else pure ()

def publish (path : Path) (bytes : Bytes) (options : AtomicWriteOptions) (file : FileHandle) (tempPath : Path) :
    FileTask Unit := do
  match ← (writeAllBytesToOpenFile file tempPath bytes.length bytes).attempt with
  | .error e => discard (some file) tempPath e
  | .ok _ =>
    match ← (flushDurably options file).attempt with
    | .error e => discard (some file) tempPath e
    | .ok _ =>
      ignore (.close file)
      match ← (perform (.replaceFile tempPath path)).attempt with
      | .error e => discard none tempPath e
      | .ok _ => pure ()

/-- The attempts from `attempt` on, of which `left` are left. -/
def attemptAtomic (path : Path) (bytes : Bytes) (options : AtomicWriteOptions) (uniqueValue : Nat) :
    Nat → Nat → IOError → FileTask Unit
  | 0, _, lastAlreadyExistsError =>
    if lastAlreadyExistsError.code ≠ .none then fail lastAlreadyExistsError
    else fail (makeError .alreadyExists "could not create atomic temp file" path)
  | left + 1, attempt, lastAlreadyExistsError => do
    let tempPath := makeAtomicTempPath path options uniqueValue attempt
    let openOptions : FileOpenOptions :=
      { access := .write, disposition := .createNew, flags := { writeThrough := options.bestEffortDurable } }
    match ← (perform (.openFile tempPath openOptions)).attempt with
    | .error e =>
      if e.code = .alreadyExists then attemptAtomic path bytes options uniqueValue left (attempt + 1) e else fail e
    | .ok file => publish path bytes options file tempPath

def ensureParent (path : Path) (options : AtomicWriteOptions) : FileTask Unit :=
  if options.createParentDirectories ∧ ¬path.parent.isEmpty ∧ path.parent.view ≠ path.view then ensureDirectory path.parent
  else pure ()

def writeAllBytesAtomic (path : Path) (bytes : Bytes) (options : AtomicWriteOptions) (uniqueValue : Nat) :
    FileTask Unit := do
  ensureParent path options
  attemptAtomic path bytes options uniqueValue 64 0 { code := .none }

/-- How many bytes a transfer moves: some, and no more than it is asked for. -/
structure Schedule where
  amount : Nat → Nat → Nat
  positive : ∀ turn size, 0 < size → 0 < amount turn size
  bounded : ∀ turn size, amount turn size ≤ size

structure OpenFile where
  path : Path
  access : FileAccess
  position : Nat := 0

structure Files where
  contents : Path → Option Bytes
  opened : FileHandle → Option OpenFile := fun _ => none
  handles : Nat := 0
  turns : Nat := 0

namespace Files

def openContent : FileCreateDisposition → Option Bytes → Option Bytes
  | .openExisting, old => old
  | .createAlways, _ => some []
  | .createNew, old => if old = none then some [] else none
  | .openAlways, old => some (old.getD [])
  | .truncateExisting, old => old.map fun _ => []

def put (s : Files) (path : Path) (content : Option Bytes) : Files :=
  { s with contents := Function.update s.contents path content }

def overwrite (file : OpenFile) (content data : Bytes) : Bytes :=
  if file.access = .append then content ++ data
  else content.take file.position ++ data ++ content.drop (file.position + data.length)

def advance (s : Files) (handle : FileHandle) (file : OpenFile) (count : Nat) : Files :=
  { s with
    opened := Function.update s.opened handle (some { file with position := file.position + count })
    turns := s.turns + 1 }

/-- The contract of `IFileSystem` and `IFileHandle`. Any call but `Close` may fail, and then changes nothing, except
    that a write may have changed the file it was for. -/
def Answers (schedule : Schedule) (s : Files) : (question : FileQuestion) → FileAnswer question → Files → Prop
  | ⟨_, .openFile path options⟩, .ok file, s' =>
    file = ⟨s.handles⟩ ∧ ∃ content, openContent options.disposition (s.contents path) = some content ∧
      s' = { s.put path (some content) with
        opened := Function.update s.opened file (some { path, access := options.access })
        handles := s.handles + 1 }
  | ⟨_, .openFile _ _⟩, .error _, s' => s' = s
  | ⟨_, .size handle⟩, .ok n, s' =>
    s' = s ∧ ∃ file content, s.opened handle = some file ∧ s.contents file.path = some content ∧ n = content.length
  | ⟨_, .size _⟩, .error _, s' => s' = s
  | ⟨_, .read handle size⟩, .ok data, s' =>
    ∃ file content, s.opened handle = some file ∧ s.contents file.path = some content ∧
      data = (content.drop file.position).take (schedule.amount s.turns (min size (content.length - file.position))) ∧
      s' = s.advance handle file data.length
  | ⟨_, .read _ _⟩, .error _, s' => s' = s
  | ⟨_, .write handle data⟩, .ok n, s' =>
    ∃ file content, s.opened handle = some file ∧ s.contents file.path = some content ∧
      n = schedule.amount s.turns data.length ∧
      s' = (s.put file.path (some (overwrite file content (data.take n)))).advance handle file n
  | ⟨_, .write handle _⟩, .error _, s' =>
    s' = s ∨ ∃ file content, s.opened handle = some file ∧ s' = s.put file.path (some content)
  | ⟨_, .flush _⟩, _, s' => s' = s
  | ⟨_, .close handle⟩, .ok _, s' => s' = { s with opened := Function.update s.opened handle none }
  | ⟨_, .close _⟩, .error _, _ => False
  | ⟨_, .createDirectories _ _⟩, _, s' => s' = s
  | ⟨_, .replaceFile source destination⟩, .ok _, s' =>
    ∃ content, s.contents source = some content ∧ s' = (s.put source none).put destination (some content)
  | ⟨_, .replaceFile _ _⟩, .error _, s' => s' = s
  | ⟨_, .removeFile path _⟩, .ok _, s' => s' = s.put path none
  | ⟨_, .removeFile _ _⟩, .error _, s' => s' = s

end Files

end NginBase.IO
