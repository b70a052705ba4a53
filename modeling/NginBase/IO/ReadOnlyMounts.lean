import NginBase.IO.VirtualSession

namespace NginBase.IO

open Library Library.Dialogue

section

variable {may : Question → Prop} {α : Type} {kind : Kind}

@[simp] theorem asks_failure {post : α → Prop} (code : IOErrorCode) (message : String) (path secondary : Path) :
    (failure code message path secondary : Task α).Asks may post := True.intro

@[simp] theorem asks_ofResult {post : α → Prop} (result : Except IOError α) :
    (ofResult result).Asks may post ↔ ∀ a, result = .ok a → post a := by
  cases result with
  | ok a => simp [ofResult]
  | error e => simp [ofResult]

@[simp] theorem asks_ofOutcome {post : α → Prop} (outcome : Except Failure α) :
    (ofOutcome outcome).Asks may post ↔ ∀ a, outcome = .ok a → post a := by
  cases outcome with
  | ok a => simp [ofOutcome]
  | error e => simp [ofOutcome]

@[simp] theorem asks_isCancellationRequested {post : Bool → Prop} :
    isCancellationRequested.Asks may post ↔ may .isCancellationRequested ∧ ∀ requested, post requested := Iff.rfl

@[simp] theorem asks_virtualize {post : Path → Prop} (mount : MountId) (path : Path) :
    (virtualize mount path).Asks may post ↔ may (.virtualize mount path) ∧ ∀ virtualPath, post virtualPath := by
  show (_ ∧ ∀ answer, (ofResult answer).Asks may post) ↔ _
  refine and_congr_right fun _ => ⟨fun all path => ?_, fun all answer => ?_⟩
  · simpa using all (.ok path)
  · simpa using fun path _ => all path

@[simp] theorem asks_forward {post : kind.Carrier → Prop} (mount : MountId) (call : Call kind) :
    Asks (α := no_index kind.Carrier) may (forward mount call) post ↔
      may (.call mount kind call) ∧ ∀ reply, post reply := by
  show (_ ∧ ∀ answer, (ofResult answer).Asks may post) ↔ _
  refine and_congr_right fun _ => ⟨fun all reply => ?_, fun all answer => ?_⟩
  · simpa using all (.ok reply)
  · simpa using fun reply _ => all reply

@[simp] theorem asks_forwardAsync {post : kind.Carrier → Prop} (mount : MountId) (call : AsyncCall kind) :
    Asks (α := no_index kind.Carrier) may (forwardAsync mount call) post ↔
      may (.callAsync mount kind call) ∧ ∀ reply, post reply := by
  show (_ ∧ ∀ answer, (ofOutcome answer).Asks may post) ↔ _
  refine and_congr_right fun _ => ⟨fun all reply => ?_, fun all answer => ?_⟩
  · simpa using all (.ok reply)
  · simpa using fun reply _ => all reply

theorem asks_ite {p : Prop} [Decidable p] {post : α → Prop} {x y : Task α} :
    (if p then x else y).Asks may post ↔ (p → x.Asks may post) ∧ (¬ p → y.Asks may post) := by
  by_cases h : p
  · simp [h]
  · simp [h]

end

section

variable {mounts : MountId → Mount} {may : Question → Prop} {post : Unit → Prop}

@[simp] theorem asks_rejectReadOnly (mount : MountId) (message : String) (path secondary : Path) :
    (rejectReadOnly mounts mount message path secondary).Asks may post ↔ (readOnly mounts mount = false → post ()) := by
  unfold rejectReadOnly
  rw [asks_ite]
  simp

@[simp] theorem asks_requireSame (lhs rhs : MountId) (message : String) (path secondary : Path) :
    (requireSame lhs rhs message path secondary).Asks may post ↔ (lhs = rhs → post ()) := by
  unfold requireSame
  rw [asks_ite]
  simp

@[simp] theorem asks_requireAsync (mount : MountId) (message : String) (path secondary : Path) :
    (requireAsync mounts mount message path secondary).Asks may post ↔
      ((mounts mount).hasAsyncFileSystem = true → post ()) := by
  unfold requireAsync
  rw [asks_ite]
  simp

end

def Harmless (mounts : MountId → Mount) : Question → Prop
  | .call mount _ call => readOnly mounts mount = true → call.mutates = false
  | .callAsync mount _ call => readOnly mounts mount = true → call.mutates = false
  | .mounts | .isCancellationRequested | .virtualize _ _ => True

abbrev Task.Spares {α : Type} (task : Task α) (mounts : MountId → Mount) : Prop := task.Asks (Harmless mounts) fun _ => True

section

variable {mounts : MountId → Mount} {source destination : MountId} {options : CopyOptions}

variable {mount : MountId}

theorem Harmless.of_writable {kind : Kind} {call : Call kind} (writable : readOnly mounts mount = false) :
    Harmless mounts (.call mount kind call) := by
  intro locked
  rw [writable] at locked
  cases locked

theorem Harmless.of_writable_async {kind : Kind} {call : AsyncCall kind} (writable : readOnly mounts mount = false) :
    Harmless mounts (.callAsync mount kind call) := by
  intro locked
  rw [writable] at locked
  cases locked

theorem Harmless.of_reading {kind : Kind} {call : Call kind} (reads : call.mutates = false) :
    Harmless mounts (.call mount kind call) := fun _ => reads

theorem Harmless.of_reading_async {kind : Kind} {call : AsyncCall kind} (reads : call.mutates = false) :
    Harmless mounts (.callAsync mount kind call) := fun _ => reads

variable (writable : readOnly mounts destination = false)

include writable

theorem removeCopiedPath_harmless (path : Path) : (removeCopiedPath destination path).Spares mounts := by
  unfold removeCopiedPath
  simp [asks_ite, Harmless.of_writable writable]

theorem writeBuffer_harmless (file : FileHandle) (sourcePath destinationPath : Path) (fuel : Nat) (data : Bytes) :
    (writeBuffer destination file sourcePath destinationPath fuel data).Spares mounts := by
  induction fuel generalizing data with
  | zero => exact asks_pause
  | succ fuel ih =>
    unfold writeBuffer
    simp [asks_ite, Harmless.of_writable writable, ih]

theorem copyContent_harmless (input output : FileHandle) (sourcePath destinationPath : Path) (fuel : Nat) :
    (copyContent source destination input output sourcePath destinationPath fuel).Spares mounts := by
  induction fuel with
  | zero => exact asks_pause
  | succ fuel ih =>
    unfold copyContent
    simp only [asks_bind, asks_forward]
    refine ⟨.of_reading rfl, fun data => ?_⟩
    simp only [asks_ite]
    refine ⟨fun _ => True.intro, fun _ => ?_⟩
    simp only [asks_bind]
    exact (writeBuffer_harmless writable output sourcePath destinationPath fuel data).anyway fun _ => ih

omit writable in
theorem closeFile_harmless (mount : MountId) (file : FileHandle) : (closeFile mount file).Spares mounts := by
  unfold closeFile
  simp only [asks_bind]
  apply asks_attempt
  · simp only [asks_forward]
    exact ⟨.of_reading rfl, fun _ => True.intro⟩
  · intro _
    exact True.intro

variable (destinationPath : Path)

theorem keepPermissions_harmless (sourceInfo : FileInfo) :
    (keepPermissions destination options destinationPath sourceInfo).Spares mounts := by
  unfold keepPermissions
  simp [asks_ite, Harmless.of_writable writable]

theorem copyCleanup_harmless (active : Bool) : (copyCleanup destination destinationPath active).Spares mounts := by
  unfold copyCleanup
  simp only [asks_ite]
  exact ⟨fun _ => removeCopiedPath_harmless writable destinationPath, fun _ => True.intro⟩

theorem copyRegularFile_harmless (fuel : Nat) (sourcePath destinationPath : Path) (sourceInfo destinationInfo : FileInfo) :
    (copyRegularFile source destination options fuel sourcePath destinationPath sourceInfo destinationInfo).Spares mounts := by
  unfold copyRegularFile
  simp only [asks_bind, asks_forward]
  refine ⟨.of_reading rfl, fun input => ⟨.of_writable writable, fun output => ?_⟩⟩
  apply asks_attempt (copyContent_harmless writable input output sourcePath destinationPath fuel)
  intro copied
  apply (closeFile_harmless source input).anyway
  intro _
  apply (closeFile_harmless destination output).anyway
  intro _
  cases copied with
  | ok _ => exact keepPermissions_harmless writable destinationPath sourceInfo
  | error e =>
    simp only [asks_bind]
    apply asks_attempt (copyCleanup_harmless writable destinationPath _)
    intro _
    exact asks_fail e

theorem clearEntry_harmless {alreadyExists : Task Unit} (fails : alreadyExists.Spares mounts) :
    (clearEntry destination options destinationPath alreadyExists).Spares mounts := by
  unfold clearEntry
  simp only [asks_ite]
  exact ⟨fun _ => removeCopiedPath_harmless writable destinationPath, fun _ => fails⟩

theorem copySymlink_harmless (sourcePath destinationPath : Path) (destinationInfo : FileInfo) :
    (copySymlink source destination options sourcePath destinationPath destinationInfo).Spares mounts := by
  have link : (do
      let target : Path ← forward source (.readSymlink sourcePath)
      forward destination (.createSymlink target destinationPath) : Task Unit).Spares mounts := by
    simp only [asks_bind, asks_forward]
    exact ⟨.of_reading rfl, fun _ => ⟨.of_writable writable, fun _ => True.intro⟩⟩
  unfold copySymlink
  simp only [asks_ite]
  refine ⟨fun _ => ?_, fun _ => link⟩
  apply (asks_bind _ _).mpr
  exact (clearEntry_harmless writable destinationPath (asks_failure _ _ _ _)).anyway fun _ => link

omit writable in
theorem copyEntries_harmless (enumerator : DirectoryEnumerator) {copy : DirectoryEntry → Task Unit}
    (copies : ∀ entry, (copy entry).Spares mounts) (fuel : Nat) :
    (copyEntries source enumerator copy fuel).Spares mounts := by
  induction fuel with
  | zero => exact asks_pause
  | succ fuel ih =>
    unfold copyEntries
    simp only [asks_bind, asks_forward]
    refine ⟨.of_reading rfl, fun next => ?_⟩
    cases next with
    | none => exact True.intro
    | some entry =>
      simp only [asks_bind]
      exact (copies entry).anyway fun _ => ih

theorem clearDestination_harmless {post : Bool → Prop} (destinationInfo : FileInfo) {alreadyExists : Task Unit}
    (fails : alreadyExists.Spares mounts) (all : ∀ create, post create) :
    (clearDestination destination options destinationPath destinationInfo alreadyExists).Asks (Harmless mounts) post := by
  unfold clearDestination
  simp only [asks_ite]
  refine ⟨fun _ => ?_, fun _ => all _⟩
  simp only [asks_bind]
  exact (clearEntry_harmless writable destinationPath fails).anyway fun _ => all _

theorem createMissing_harmless (create : Bool) (options : DirectoryCreateOptions) :
    (createMissing destination destinationPath create options).Spares mounts := by
  unfold createMissing
  simp [asks_ite, Harmless.of_writable writable]

theorem copyDirectory_harmless {copy : DirectoryEntry → List FileIdentity → Task Unit}
    (copies : ∀ entry active, (copy entry active).Spares mounts)
    (fuel : Nat) (sourcePath destinationPath : Path) (sourceInfo destinationInfo : FileInfo) (active : List FileIdentity) :
    (copyDirectory source destination options copy fuel sourcePath destinationPath sourceInfo destinationInfo active).Spares mounts := by
  unfold copyDirectory
  simp only [asks_ite, asks_bind]
  refine ⟨fun _ => asks_failure _ _ _ _, fun _ => ⟨fun _ => asks_failure _ _ _ _, fun _ => ?_⟩⟩
  apply clearDestination_harmless writable destinationPath destinationInfo (asks_failure _ _ _ _)
  intro create
  apply (createMissing_harmless writable destinationPath create _).anyway
  intro _
  refine asks_onFailure ?_ (copyCleanup_harmless writable destinationPath _) fun _ => True.intro
  simp only [asks_bind, asks_forward]
  refine ⟨.of_reading rfl, fun enumerator => ?_⟩
  apply (copyEntries_harmless enumerator (fun entry => copies entry _) fuel).anyway
  intro _
  exact keepPermissions_harmless writable destinationPath sourceInfo

omit writable in
theorem followSource_harmless {post : FileInfo → Prop} (sourcePath destinationPath : Path) (sourceInfo : FileInfo)
    (all : ∀ info, post info) :
    (followSource source sourcePath destinationPath sourceInfo).Asks (Harmless mounts) post := by
  unfold followSource
  simp only [asks_ite, asks_bind, asks_forward]
  refine ⟨fun _ => ⟨.of_reading rfl, fun target => ?_⟩, fun _ => all _⟩
  exact ⟨fun _ => asks_failure _ _ _ _, fun _ => all _⟩

theorem copyAcrossFileSystems_harmless (fuel : Nat) (sourcePath destinationPath : Path) (active : List FileIdentity) :
    (copyAcrossFileSystems source destination options fuel sourcePath destinationPath active).Spares mounts := by
  induction fuel generalizing sourcePath destinationPath active with
  | zero => exact asks_pause
  | succ fuel ih =>
    unfold copyAcrossFileSystems
    simp only [asks_bind, asks_forward, asks_ite]
    refine ⟨.of_reading rfl, fun sourceInfo => ⟨fun _ => asks_failure _ _ _ _, fun _ => ?_⟩⟩
    refine ⟨fun _ => asks_failure _ _ _ _, fun _ => ⟨.of_reading rfl, fun destinationInfo => ?_⟩⟩
    refine ⟨fun _ => copySymlink_harmless writable sourcePath destinationPath destinationInfo, fun _ => ?_⟩
    apply followSource_harmless
    intro info
    refine ⟨fun _ => ?_, fun _ => ⟨fun _ => asks_failure _ _ _ _, fun _ => ?_⟩⟩
    · exact copyDirectory_harmless writable (fun entry active => ih _ _ active) fuel sourcePath destinationPath info
        destinationInfo active
    · exact copyRegularFile_harmless writable fuel sourcePath destinationPath info destinationInfo

end

namespace VirtualFileSystem

section

variable {mounts : MountId → Mount} {table : List MountId} {kind : Kind}

variable (path : Path)

@[simp] theorem asks_resolve {may : Question → Prop} {post : MountId × Path → Prop} :
    (resolve mounts table path).Asks may post ↔
      ∀ mount translated, resolvePath mounts table path = .ok (mount, translated) → post (mount, translated) := by
  unfold resolve
  rw [asks_ofResult, Prod.forall]

theorem forwardTo_harmless {call : Path → Call kind} (reads : ∀ path, (call path).mutates = false) :
    (forwardTo mounts table path call).Spares mounts := by
  unfold forwardTo
  simp only [asks_bind, asks_resolve, asks_forward]
  intro mount translated _
  exact ⟨.of_reading (reads translated), fun _ => True.intro⟩

theorem forwardWriting_harmless (call : Path → Call kind) : (forwardWriting mounts table path call).Spares mounts := by
  unfold forwardWriting
  simp only [asks_bind, asks_resolve, asks_forward, asks_rejectReadOnly]
  intro mount translated _ writable
  exact ⟨.of_writable writable, fun _ => True.intro⟩

theorem getCapabilities_harmless : (getCapabilities table).Spares mounts := by
  have rest (table : List MountId) (capabilities : FileSystemCapabilities) :
      (table.foldlM (fun capabilities mount => do
        let further ← forward mount .getCapabilities
        pure (intersectCapabilities capabilities further)) capabilities : Task FileSystemCapabilities).Spares mounts := by
    induction table generalizing capabilities with
    | nil => exact True.intro
    | cons mount table ih =>
      simp only [List.foldlM_cons, asks_bind, asks_forward]
      exact ⟨.of_reading rfl, fun _ => ih _⟩
  cases table with
  | nil => exact True.intro
  | cons front table =>
    unfold getCapabilities
    simp only [asks_bind, asks_forward]
    exact ⟨.of_reading rfl, fun capabilities => rest table capabilities⟩

theorem getInfo_harmless (options : MetadataOptions) : (getInfo mounts table path options).Spares mounts := by
  unfold getInfo
  simp only [asks_bind]
  exact (forwardTo_harmless path fun _ => rfl).anyway fun _ => True.intro

theorem absolute_harmless (base : Path) : (absolute path base).Spares mounts := by
  unfold absolute
  simp [asks_ite]

theorem canonical_harmless : (canonical mounts table path).Spares mounts := by
  unfold canonical
  simp only [asks_bind, asks_resolve, asks_forward, asks_virtualize]
  intro mount translated _
  exact ⟨.of_reading rfl, fun _ => ⟨True.intro, fun _ => True.intro⟩⟩

theorem weaklyCanonical_harmless : (weaklyCanonical mounts table path).Spares mounts := by
  unfold weaklyCanonical
  simp only [asks_bind, asks_resolve, asks_forward, asks_virtualize]
  intro mount translated _
  exact ⟨.of_reading rfl, fun _ => ⟨True.intro, fun _ => True.intro⟩⟩

theorem sameFile_harmless (lhs rhs : Path) : (sameFile mounts table lhs rhs).Spares mounts := by
  unfold sameFile
  simp only [asks_bind, asks_resolve, asks_forward, asks_ite]
  intro mount translated _ mount' translated' _
  exact ⟨fun _ => True.intro, fun _ => ⟨.of_reading rfl, fun _ => True.intro⟩⟩

theorem readSymlink_harmless : (readSymlink mounts table path).Spares mounts := by
  unfold readSymlink
  simp only [asks_bind, asks_resolve, asks_forward, asks_ite]
  intro mount translated _
  refine ⟨.of_reading rfl, fun target => ⟨fun _ => ?_, fun _ => True.intro⟩⟩
  apply asks_attempt
  · simp only [asks_virtualize]
    exact ⟨True.intro, fun _ => True.intro⟩
  · intro result
    cases result with
    | ok _ => exact True.intro
    | error _ => exact True.intro

theorem createSymlink_harmless (target linkPath : Path) : (createSymlink mounts table target linkPath).Spares mounts := by
  unfold createSymlink
  simp only [asks_bind, asks_resolve, asks_forward, asks_ite, asks_rejectReadOnly, asks_requireSame]
  intro mount translated _ writable
  refine ⟨fun _ => ?_, fun _ => ⟨.of_writable writable, fun _ => True.intro⟩⟩
  intro targetMount translatedTarget _ _
  exact ⟨.of_writable writable, fun _ => True.intro⟩

theorem createHardLink_harmless (target linkPath : Path) : (createHardLink mounts table target linkPath).Spares mounts := by
  unfold createHardLink
  simp only [asks_bind, asks_resolve, asks_forward, asks_rejectReadOnly, asks_requireSame]
  intro targetMount translatedTarget _ linkMount translatedLink _ writable same
  subst same
  exact ⟨.of_writable writable, fun _ => True.intro⟩

theorem rename_harmless (source destination : Path) : (rename mounts table source destination).Spares mounts := by
  unfold rename
  simp only [asks_bind, asks_resolve, asks_forward, asks_rejectReadOnly, asks_requireSame]
  intro sourceMount sourcePath _ destinationMount destinationPath _ same writable
  exact ⟨.of_writable writable, fun _ => True.intro⟩

theorem renameNoReplace_harmless (source destination : Path) :
    (renameNoReplace mounts table source destination).Spares mounts := by
  unfold renameNoReplace
  simp only [asks_bind, asks_resolve, asks_forward, asks_rejectReadOnly, asks_requireSame]
  intro sourceMount sourcePath _ destinationMount destinationPath _ same writable
  subst same
  exact ⟨.of_writable writable, fun _ => True.intro⟩

theorem replaceFile_harmless (source destination : Path) (options : ReplaceOptions) :
    (replaceFile mounts table source destination options).Spares mounts := by
  unfold replaceFile
  simp only [asks_bind, asks_resolve, asks_forward, asks_rejectReadOnly, asks_requireSame]
  intro sourceMount sourcePath _ destinationMount destinationPath _ same writable
  subst same
  exact ⟨.of_writable writable, fun _ => True.intro⟩

theorem copyFile_harmless (fuel : Nat) (source destination : Path) (options : CopyOptions) :
    (copyFile mounts table fuel source destination options).Spares mounts := by
  unfold copyFile
  simp only [asks_bind, asks_resolve, asks_forward, asks_rejectReadOnly, asks_ite]
  intro sourceMount sourcePath _ destinationMount destinationPath _ writable
  refine ⟨fun same => ?_, fun _ => copyAcrossFileSystems_harmless writable fuel sourcePath destinationPath []⟩
  subst same
  exact ⟨.of_writable writable, fun _ => True.intro⟩

theorem move_harmless (fuel : Nat) (source destination : Path) (options : CopyOptions) :
    (move mounts table fuel source destination options).Spares mounts := by
  unfold move
  simp only [asks_bind, asks_resolve, asks_forward, asks_rejectReadOnly, asks_ite]
  intro sourceMount sourcePath _ destinationMount destinationPath _ writable
  refine ⟨fun same => ?_, fun _ sourceWritable => ?_⟩
  · subst same
    exact ⟨.of_writable writable, fun _ => True.intro⟩
  · apply (copyFile_harmless fuel source destination options).anyway
    intro _
    refine ⟨.of_reading rfl, fun info => ⟨fun _ => ?_, fun _ => ?_⟩⟩
    · exact ⟨.of_writable sourceWritable, fun _ => True.intro⟩
    · exact ⟨.of_writable sourceWritable, fun _ => True.intro⟩

/-- The options under which `OpenFile` looks at the mount are not all that write. -/
def Opens (mounts : MountId → Mount) (table : List MountId) (path : Path) (options : FileOpenOptions) : Prop :=
  ∀ mount translated, resolvePath mounts table path = .ok (mount, translated) → readOnly mounts mount = true →
    options.access = .read → options.mutates = false

theorem openFile_harmless {path : Path} {options : FileOpenOptions} (opens : Opens mounts table path options) :
    (openFile mounts table path options).Spares mounts := by
  unfold openFile
  simp only [asks_bind, asks_resolve, asks_forward, asks_rejectReadOnly, asks_ite]
  intro mount translated resolved
  refine ⟨fun _ writable => ⟨.of_writable writable, fun _ => True.intro⟩, fun reading => ⟨?_, fun _ => True.intro⟩⟩
  intro locked
  apply opens mount translated resolved locked
  cases access : options.access with
  | read => rfl
  | write => simp [access] at reading
  | readWrite => simp [access] at reading
  | append => simp [access] at reading

theorem tempDirectory_harmless : (tempDirectory table).Spares mounts := by
  cases table with
  | nil => exact asks_failure _ _ _ _
  | cons front rest =>
    unfold tempDirectory
    simp only [asks_forward]
    exact ⟨.of_reading rfl, fun _ => True.intro⟩

theorem createTempAnywhere_harmless (call : Path → Call .path) (table : List MountId) :
    (createTempAnywhere mounts call table).Spares mounts := by
  induction table with
  | nil => exact asks_failure _ _ _ _
  | cons mount rest ih =>
    unfold createTempAnywhere
    simp only [asks_ite]
    refine ⟨fun _ => ih, fun unlocked => ?_⟩
    have writable : readOnly mounts mount = false := by simpa using unlocked
    cases (mounts mount).translate (mounts mount).point.virtualPrefix with
    | error _ => exact ih
    | ok translatedRoot =>
      simp only [asks_bind, asks_forward, asks_virtualize]
      exact ⟨.of_writable writable, fun _ => ⟨True.intro, fun _ => True.intro⟩⟩

theorem createTemp_harmless (directory : Path) (call : Path → Call .path) :
    (createTemp mounts table directory call).Spares mounts := by
  unfold createTemp
  simp only [asks_ite, asks_bind, asks_resolve, asks_forward, asks_rejectReadOnly, asks_virtualize]
  refine ⟨fun _ mount translated _ writable => ?_, fun _ => createTempAnywhere_harmless call table⟩
  exact ⟨.of_writable writable, fun _ => ⟨True.intro, fun _ => True.intro⟩⟩

end

end VirtualFileSystem

end NginBase.IO
