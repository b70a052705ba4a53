import NginBase.IO.ReadOnlyMounts

namespace NginBase.IO.VirtualFileSystem

open Library Library.Dialogue Session AsyncCall List

variable {mounts : MountId → Mount} {table : List MountId}

section

variable {source destination : MountId} {options : CopyOptions}

@[simp] theorem asks_failIfCanceled {may : Question → Prop} {post : Unit → Prop} :
    failIfCanceled.Asks may post ↔ may .isCancellationRequested ∧ post () := by
  unfold failIfCanceled
  simp

theorem writeBufferAsync_harmless (writable : readOnly mounts destination = false) (file : AsyncFileHandle)
    (source_ destination_ : Path) (fuel : Nat) (data : Bytes) :
    (writeBufferAsync destination file source_ destination_ fuel data).Spares mounts := by
  induction fuel generalizing data with
  | zero => exact asks_pause
  | succ fuel ih =>
    unfold writeBufferAsync
    simp [asks_ite, Harmless.of_writable_async writable, ih]

theorem closeBoth_harmless (input output : AsyncFileHandle) :
    (closeBoth source destination input output).Spares mounts := by
  unfold closeBoth
  simp only [asks_bind, asks_forwardAsync]
  exact ⟨.of_reading_async rfl, fun _ => ⟨.of_reading_async rfl, fun _ => True.intro⟩⟩

theorem copyContentAsync_harmless (writable : readOnly mounts destination = false) (input output : AsyncFileHandle)
    (source_ destination_ : Path) (fuel : Nat) :
    (copyContentAsync source destination input output source_ destination_ fuel).Spares mounts := by
  induction fuel with
  | zero => exact asks_pause
  | succ fuel ih =>
    unfold copyContentAsync
    simp only [asks_bind, asks_ite, asks_forwardAsync]
    refine ⟨True.intro, fun requested => ⟨fun _ => ?_, fun _ => ⟨.of_reading_async rfl, fun data => ?_⟩⟩⟩
    · apply (closeBoth_harmless input output).anyway
      intro _
      exact asks_fail _
    · refine ⟨fun _ => True.intro, fun _ => ?_⟩
      exact (writeBufferAsync_harmless writable output source_ destination_ fuel data).anyway fun _ => ih

theorem copyEntriesAsync_harmless (enumerator : DirectoryEnumerator) {copy : DirectoryEntry → Task Unit}
    (copies : ∀ entry, (copy entry).Spares mounts) (fuel : Nat) :
    (copyEntriesAsync source enumerator copy fuel).Spares mounts := by
  induction fuel with
  | zero => exact asks_pause
  | succ fuel ih =>
    unfold copyEntriesAsync
    simp only [asks_bind, asks_failIfCanceled, asks_forward]
    refine ⟨True.intro, .of_reading rfl, fun next => ?_⟩
    cases next with
    | none => exact True.intro
    | some entry =>
      simp only [asks_bind]
      exact (copies entry).anyway fun _ => ih

theorem copyRegularFileAsync_harmless (writable : readOnly mounts destination = false) (fuel : Nat)
    (sourcePath destinationPath source_ destination_ : Path) (sourceInfo destinationInfo : FileInfo) :
    (copyRegularFileAsync fuel source destination sourcePath destinationPath source_ destination_ options sourceInfo
      destinationInfo).Spares mounts := by
  unfold copyRegularFileAsync
  simp only [asks_bind, asks_forwardAsync]
  refine ⟨.of_reading_async rfl, fun input => ⟨.of_writable_async writable, fun output => ?_⟩⟩
  refine asks_onFailure ?_ (copyCleanup_harmless writable destinationPath _) fun _ => True.intro
  simp only [asks_bind]
  apply (copyContentAsync_harmless writable input output source_ destination_ fuel).anyway
  intro _
  apply (closeBoth_harmless input output).anyway
  intro _
  exact keepPermissions_harmless writable destinationPath sourceInfo

theorem copyDirectoryAsync_harmless (writable : readOnly mounts destination = false) {copy : DirectoryEntry → Task Unit}
    (copies : ∀ entry, (copy entry).Spares mounts) (fuel : Nat)
    (sourcePath destinationPath source_ destination_ : Path) (sourceInfo destinationInfo : FileInfo) :
    (copyDirectoryAsync copy fuel source destination sourcePath destinationPath source_ destination_ options sourceInfo
      destinationInfo).Spares mounts := by
  unfold copyDirectoryAsync
  simp only [asks_ite, asks_bind]
  refine ⟨fun _ => asks_failure _ _ _ _, fun _ => ?_⟩
  apply clearDestination_harmless writable destinationPath destinationInfo (asks_failure _ _ _ _)
  intro create
  refine asks_onFailure ?_ (copyCleanup_harmless writable destinationPath _) fun _ => True.intro
  simp only [asks_bind, asks_forward]
  apply (createMissing_harmless writable destinationPath create _).anyway
  intro _
  refine ⟨.of_reading rfl, fun enumerator => ?_⟩
  apply (copyEntriesAsync_harmless enumerator copies fuel).anyway
  intro _
  exact keepPermissions_harmless writable destinationPath sourceInfo

theorem copyFileAsync_harmless (fuel : Nat) (table : List MountId) (source_ destination_ : Path) (options : CopyOptions) :
    (copyFileAsync mounts fuel table source_ destination_ options).Spares mounts := by
  induction fuel generalizing table source_ destination_ with
  | zero => exact asks_pause
  | succ fuel ih =>
    unfold copyFileAsync
    simp only [asks_bind, asks_resolve, asks_rejectReadOnly, asks_requireAsync, asks_forward, asks_forwardAsync,
      asks_failIfCanceled, asks_ite]
    intro source sourcePath _ destination destinationPath _ writable
    refine ⟨fun same _ => ?_, fun _ _ _ => ⟨.of_reading rfl, fun sourceInfo => ⟨fun _ => asks_failure _ _ _ _, ?_⟩⟩⟩
    · subst same
      exact ⟨.of_writable_async writable, fun _ => True.intro⟩
    · intro _
      refine ⟨True.intro, fun _ => copyFile_harmless fuel source_ destination_ options, fun _ => ?_⟩
      refine ⟨.of_reading rfl, fun destinationInfo => ⟨fun _ => ?_, fun _ => ⟨fun _ => asks_failure _ _ _ _, ?_⟩⟩⟩
      · apply copyDirectoryAsync_harmless writable
        intro entry
        exact ⟨True.intro, fun current => ih current _ _⟩
      · intro _
        exact copyRegularFileAsync_harmless writable fuel sourcePath destinationPath source_ destination_ sourceInfo
          destinationInfo

end

theorem openFileAsync_harmless {path : Path} {options : FileOpenOptions}
    (opens : ∀ mount translated, resolvePath mounts table path = .ok (mount, translated) →
      (mounts mount).hasAsyncFileSystem = true → readOnly mounts mount = true → options.mutates = false) :
    (openFileAsync mounts table path options).Spares mounts := by
  unfold openFileAsync
  simp only [asks_bind, asks_resolve, asks_requireAsync, asks_forwardAsync]
  intro mount translated resolved async
  exact ⟨opens mount translated resolved async, fun _ => True.intro⟩

theorem openDirectoryAsync_harmless (path : Path) : (openDirectoryAsync mounts table path).Spares mounts := by
  unfold openDirectoryAsync
  simp only [asks_bind, asks_resolve, asks_requireAsync, asks_forwardAsync]
  intro mount translated _ _
  exact ⟨.of_reading_async rfl, fun _ => True.intro⟩

theorem getInfoAsync_harmless (path : Path) (options : MetadataOptions) :
    (getInfoAsync mounts table path options).Spares mounts := by
  unfold getInfoAsync
  simp only [asks_bind, asks_resolve, asks_requireAsync, asks_forwardAsync]
  intro mount translated _ _
  exact ⟨.of_reading_async rfl, fun _ => True.intro⟩

theorem openDirectory_harmless (path : Path) : (openDirectory mounts table path).Spares mounts := by
  unfold openDirectory
  simp only [asks_bind]
  apply (getInfo_harmless path {}).anyway
  intro info
  simp [asks_ite]

theorem asks_target {α : Type} {may : Question → Prop} {post : α → Prop} (handle : VirtualDirectoryHandle) (path : Path)
    (operation : Path → Task α) : (handle.target path >>= operation).Asks may post ↔
      ∀ normalized, normalizeRelativeHandlePath path = .ok normalized →
        (operation (joinHandlePath handle.path normalized)).Asks may post := by
  unfold VirtualDirectoryHandle.target
  simp only [asks_bind, asks_ofResult, asks_pure]

theorem createDirectoryIn_harmless (handle : VirtualDirectoryHandle) (path : Path) (options : DirectoryCreateOptions) :
    (handle.createDirectory mounts table path options).Spares mounts := by
  unfold VirtualDirectoryHandle.createDirectory
  simp only [asks_target]
  intro normalized _
  simp only [asks_ite]
  exact ⟨fun _ => forwardWriting_harmless _ _, fun _ => forwardWriting_harmless _ _⟩

theorem keep_harmless (kind : Kind) {task : Task kind.Carrier} (harmless : task.Spares mounts) :
    (keep kind task).Spares mounts := by
  unfold keep
  simp only [asks_bind]
  exact harmless

theorem keepDirectory_harmless {task : Task VirtualDirectoryHandle} (harmless : task.Spares mounts) :
    (keepDirectory task).Spares mounts := by
  unfold keepDirectory
  simp only [asks_bind]
  exact harmless

theorem keepAsyncDirectory_harmless {task : Task (MountId × AsyncDirectoryHandle)} (harmless : task.Spares mounts) :
    (keepAsyncDirectory task).Spares mounts := by
  unfold keepAsyncDirectory
  simp only [asks_bind]
  exact harmless

/-- What a caller has to see to: a file on a read-only mount is opened for reading only, as it is. `OpenFile` rejects
    write access, but nothing else that writes, and the asynchronous operations reject nothing. -/
def Cautious (mounts : MountId → Mount) (table : List MountId) : Operation → Prop
  | .openFile path options => Opens mounts table path options
  | .openFileIn handle path options =>
    ∀ normalized, normalizeRelativeHandlePath path = .ok normalized →
      Opens mounts table (joinHandlePath handle.path normalized) options
  | .openFileAsync path options =>
    ∀ mount translated, resolvePath mounts table path = .ok (mount, translated) →
      (mounts mount).hasAsyncFileSystem = true → readOnly mounts mount = true → options.mutates = false
  | .openFileAsyncIn mount _ _ options => readOnly mounts mount = true → options.mutates = false
  | _ => True

theorem perform_harmless {operation : Operation} (cautious : Cautious mounts table operation) (fuel : Nat) :
    (perform mounts table fuel operation).Spares mounts := by
  cases operation with
  | getCapabilities => exact keep_harmless .capabilities getCapabilities_harmless
  | exists_ path => exact keep_harmless .truth (forwardTo_harmless path fun _ => rfl)
  | openFileView path => exact keep_harmless .view (forwardTo_harmless path fun _ => rfl)
  | enumerate path options => exact keep_harmless .enumerator (forwardTo_harmless path fun _ => rfl)
  | getSpaceInfo path => exact keep_harmless .space (forwardTo_harmless path fun _ => rfl)
  | getInfo path options => exact keep_harmless .info (getInfo_harmless path options)
  | absolute path base => exact keep_harmless .path (absolute_harmless path base)
  | canonical path => exact keep_harmless .path (canonical_harmless path)
  | weaklyCanonical path => exact keep_harmless .path (weaklyCanonical_harmless path)
  | sameFile lhs rhs => exact keep_harmless .truth (sameFile_harmless lhs rhs)
  | readSymlink path => exact keep_harmless .path (readSymlink_harmless path)
  | createDirectory path _ | createDirectories path _ | setPermissions path _ _ | removeFile path _ | removeDirectory path _ =>
    exact keep_harmless .nothing (forwardWriting_harmless path _)
  | removeAll path _ => exact keep_harmless .number (forwardWriting_harmless path _)
  | createSymlink target linkPath => exact keep_harmless .nothing (createSymlink_harmless target linkPath)
  | createHardLink target linkPath => exact keep_harmless .nothing (createHardLink_harmless target linkPath)
  | rename source destination => exact keep_harmless .nothing (rename_harmless source destination)
  | renameNoReplace source destination => exact keep_harmless .nothing (renameNoReplace_harmless source destination)
  | replaceFile source destination options => exact keep_harmless .nothing (replaceFile_harmless source destination options)
  | copyFile source destination options => exact keep_harmless .nothing (copyFile_harmless fuel source destination options)
  | move source destination options => exact keep_harmless .nothing (move_harmless fuel source destination options)
  | openFile path options => exact keep_harmless .file (openFile_harmless cautious)
  | openDirectory path => exact keepDirectory_harmless (openDirectory_harmless path)
  | currentWorkingDirectory => exact keep_harmless .path (asks_failure _ _ _ _)
  | setCurrentWorkingDirectory path => exact keep_harmless .nothing (asks_failure _ _ _ _)
  | tempDirectory => exact keep_harmless .path tempDirectory_harmless
  | createTempDirectory directory _ | createTempFile directory _ => exact keep_harmless .path (createTemp_harmless directory _)
  | openFileAsync path options => exact keep_harmless .asyncFile (openFileAsync_harmless cautious)
  | openDirectoryAsync path => exact keepAsyncDirectory_harmless (openDirectoryAsync_harmless path)
  | getInfoAsync path options => exact keep_harmless .info (getInfoAsync_harmless path options)
  | copyFileAsync source destination options =>
    exact keep_harmless .nothing (copyFileAsync_harmless fuel table source destination options)
  | existsIn handle path =>
    exact keep_harmless .truth ((asks_target handle path _).mpr fun _ _ => forwardTo_harmless _ fun _ => rfl)
  | getInfoIn handle path options =>
    exact keep_harmless .info ((asks_target handle path _).mpr fun _ _ => getInfo_harmless _ options)
  | openFileIn handle path options =>
    exact keep_harmless .file ((asks_target handle path _).mpr fun normalized accepted =>
      openFile_harmless (cautious normalized accepted))
  | openDirectoryIn handle path =>
    exact keepDirectory_harmless ((asks_target handle path _).mpr fun _ _ => openDirectory_harmless _)
  | createDirectoryIn handle path options => exact keep_harmless .nothing (createDirectoryIn_harmless handle path options)
  | removeFileIn handle path _ | removeDirectoryIn handle path _ =>
    exact keep_harmless .nothing ((asks_target handle path _).mpr fun _ _ => forwardWriting_harmless _ _)
  | readSymlinkIn handle path =>
    exact keep_harmless .path ((asks_target handle path _).mpr fun _ _ => readSymlink_harmless _)
  | existsAsyncIn | getInfoAsyncIn | readSymlinkAsyncIn => exact keep_harmless _ (by simp [Harmless, mutates])
  | openFileAsyncIn mount handle path options =>
    exact keep_harmless .asyncFile ((asks_forwardAsync _ _).mpr ⟨cautious, fun _ => True.intro⟩)
  | openDirectoryAsyncIn mount handle path => exact keepAsyncDirectory_harmless (by simp [Harmless, mutates])

structure Session.Clean (mounts : MountId → Mount) (session : Session) : Prop where
  asked : ∀ question ∈ session.asked, Harmless mounts question
  tasks : ∀ task ∈ session.tasks, task.Spares mounts

theorem Session.Step.clean {session session' : Session} (step : Step mounts (Cautious mounts) session session')
    (clean : session.Clean mounts) : session'.Clean mounts := by
  cases step with
  | addMount mount table permutation sorted => exact ⟨clean.asked, clean.tasks⟩
  | clearMounts => exact ⟨clean.asked, clean.tasks⟩
  | start operation fuel held admits =>
    refine ⟨clean.asked, fun task mem => ?_⟩
    rcases mem_append.mp mem with mem | mem
    · exact clean.tasks task mem
    · rw [mem_singleton.mp mem]
      exact perform_harmless admits fuel
  | advance before after question resume answer tasks answers =>
    have current := clean.tasks (.ask question resume) (by simp [tasks])
    refine ⟨fun asked mem => ?_, fun task mem => ?_⟩
    · rcases mem_append.mp mem with mem | mem
      · exact clean.asked asked mem
      · rw [mem_singleton.mp mem]
        exact current.1
    · rcases mem_append.mp mem with mem | mem
      · exact clean.tasks task (by simp [tasks, mem])
      · rcases mem_cons.mp mem with rfl | mem
        · exact current.2 answer
        · exact clean.tasks task (by simp [tasks, mem])
  | finish before after result tasks =>
    refine ⟨clean.asked, fun task mem => clean.tasks task ?_⟩
    rcases mem_append.mp mem with mem | mem
    · simp [tasks, mem]
    · simp [tasks, mem]

/-- Whatever the mounts answer and in whatever order the tasks advance, a session of cautious operations forwards
    nothing to a read-only mount that writes. -/
theorem readOnly_mounts_unwritten (mounts : MountId → Mount) (session : Session)
    (reached : Reached mounts (Cautious mounts) session) :
    ∀ question ∈ session.asked, Harmless mounts question := by
  have clean : session.Clean mounts := by
    induction reached with
    | refl => exact ⟨by simp, by simp⟩
    | tail _ step ih => exact step.clean ih
  exact clean.asked

def lockedData : MountId → Mount := fun _ =>
  (LocalMount.make ⟨[0x2F, 0x64, 0x61, 0x74, 0x61]⟩ { readOnly := true }).mount

def openData (options : FileOpenOptions) : Question :=
  .call 0 .file (.openFile ⟨[0x2F, 0x64, 0x61, 0x74, 0x61, 0x2F, 0x66]⟩ options)

def openedSession (options : FileOpenOptions) : Session where
  table := [0]
  tasks := [keep .file (ofResult (.ok ⟨7⟩))]
  asked := [openData options]

theorem openedSession_reached {admitted : List MountId → Operation → Prop} {options : FileOpenOptions}
    (reads : options.access = .read) (admits : admitted [0] (.openFile ⟨[0x2F, 0x66]⟩ options)) :
    Reached lockedData admitted (openedSession options) := by
  have resolved : resolvePath lockedData [0] ⟨[0x2F, 0x66]⟩ = .ok (0, ⟨[0x2F, 0x64, 0x61, 0x74, 0x61, 0x2F, 0x66]⟩) := by
    decide +kernel
  have task : perform lockedData [0] 0 (.openFile ⟨[0x2F, 0x66]⟩ options) =
      .ask (openData options) fun answer => keep .file (ofResult answer) := by
    show keep .file (openFile lockedData [0] ⟨[0x2F, 0x66]⟩ options) = _
    unfold openFile resolve
    simp only [reads]
    rfl
  have mounted : Step lockedData admitted {} { table := [0] } := .addMount _ 0 [0] (.refl _) (by simp)
  have started : Step lockedData admitted { table := [0] }
      { table := [0], tasks := [perform lockedData [0] 0 (.openFile ⟨[0x2F, 0x66]⟩ options)] } :=
    .start _ (.openFile ⟨[0x2F, 0x66]⟩ options) 0 (by simp [Operation.handle]) admits
  rw [task] at started
  have opened : Step lockedData admitted
      { table := [0], tasks := [.ask (openData options) fun answer => keep .file (ofResult answer)] }
      (openedSession options) :=
    .advance { table := [0], tasks := [.ask (openData options) fun answer => keep .file (ofResult answer)] } [] []
      (openData options) (fun answer => keep .file (ofResult answer)) (.ok ⟨7⟩ : Except IOError FileHandle) rfl True.intro
  exact ((Relation.ReflTransGen.single mounted).tail started).tail opened

theorem readOnly_mounts_unwritten_opened : Reached lockedData (Cautious lockedData) (openedSession {}) ∧
      ∀ question ∈ (openedSession {}).asked, Harmless lockedData question := by
  have reached : Reached lockedData (Cautious lockedData) (openedSession {}) :=
    openedSession_reached rfl fun _ _ _ _ _ => rfl
  exact ⟨reached, readOnly_mounts_unwritten lockedData _ reached⟩

theorem readOnly_mount_written : ¬ ∀ (mounts : MountId → Mount) (session : Session),
    Reached mounts (fun _ _ => True) session → ∀ question ∈ session.asked, Harmless mounts question := by
  intro unwritten
  have harmless := unwritten lockedData (openedSession { disposition := .createAlways })
    (openedSession_reached rfl True.intro) _ (mem_singleton.mpr rfl)
  have locked : readOnly lockedData 0 = true := by decide +kernel
  exact absurd (harmless locked) (by decide)

end NginBase.IO.VirtualFileSystem
