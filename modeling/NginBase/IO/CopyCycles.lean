import NginBase.IO.VirtualFileSystem

namespace NginBase.IO

open Library Library.Dialogue Finset Function List Nat

section

/-! `CopyAcrossFileSystems` with the vector that it is given by reference, and with its calls and returns. -/

inductive ListQuestion
  | active
  | push (identity : FileIdentity)
  | pop
  | enter
  | leave

@[reducible] def ListAnswer : ListQuestion → Type
  | .active => List FileIdentity
  | .push _ | .pop | .enter | .leave => Unit

abbrev Tracked := Dialogue (Question ⊕ ListQuestion) (Sum.elim Answer ListAnswer) Failure

variable {α : Type}

def activeDirectories : Tracked (List FileIdentity) := ask (.inr .active) pure

def pushBack (identity : FileIdentity) : Tracked Unit := ask (.inr (.push identity)) pure

def popBack : Tracked Unit := ask (.inr .pop) pure

def enter : Tracked Unit := ask (.inr .enter) pure

def leave : Tracked Unit := ask (.inr .leave) pure

def called (body : Tracked Unit) : Tracked Unit := do
  enter
  let result ← body.attempt
  leave
  match result with
  | .ok _ => pure ()
  | .error e => fail e

variable (source destination : MountId) (options : CopyOptions)

def copyEntriesTracked (enumerator : DirectoryEnumerator) (copy : DirectoryEntry → Tracked Unit) : Nat → Tracked Unit
  | 0 => pause
  | fuel + 1 => do
    let next : Option DirectoryEntry ← (forward source (.next enumerator)).inl
    match next with
    | none => pure ()
    | some entry => do
      copy entry
      copyEntriesTracked enumerator copy fuel

/-- What follows once the directory is on the list and the destination is there. -/
def copyListed (copy : DirectoryEntry → Tracked Unit) (fuel : Nat) (sourcePath destinationPath : Path) (sourceInfo : FileInfo)
    (create : Bool) : Tracked Unit := do
  let entries : Tracked Unit := do
    let enumerator : DirectoryEnumerator ← (forward source (.enumerate sourcePath
      { recursive := false, includeFiles := true, includeDirectories := true, includeSymlinks := true })).inl
    copyEntriesTracked source enumerator copy fuel
  let copied ← entries.attempt
  if sourceInfo.identity.valid then popBack
  let cleanup := copyCleanup destination destinationPath (create && options.cleanupOnFailure)
  match copied with
  | .error e => do
    let _ ← cleanup.attempt.inl
    fail e
  | .ok _ => ((keepPermissions destination options destinationPath sourceInfo).onFailure cleanup).inl

def copyDirectoryTracked (copy : DirectoryEntry → Tracked Unit) (fuel : Nat) (sourcePath destinationPath : Path)
    (sourceInfo destinationInfo : FileInfo) : Tracked Unit :=
  if !options.recursive then
    fail (.domain (makeError .notSupported "directory copy requires recursive option" sourcePath destinationPath))
  else do
    let active ← activeDirectories
    if sourceInfo.identity.valid && onPath active sourceInfo.identity then
      fail (.domain (makeError .invalidPath "symbolic-link cycle detected during cross-mount copy" sourcePath destinationPath))
    else do
      if sourceInfo.identity.valid then pushBack sourceInfo.identity
      -- A failure from here to the enumeration leaves the identity on the list.
      let create ← (clearDestination destination options destinationPath destinationInfo
        (failure .alreadyExists "destination exists" destinationPath sourcePath)).inl
      (createMissing destination destinationPath create { recursive := false, ignoreIfExists := false }).inl
      copyListed source destination options copy fuel sourcePath destinationPath sourceInfo create

def copyTracked : Nat → Path → Path → Tracked Unit
  | 0, _, _ => pause
  | fuel + 1, sourcePath, destinationPath => called do
    let sourceInfo : FileInfo ← (forward source (.getInfo sourcePath { symlinkMode := .doNotFollow })).inl
    if !sourceInfo.exists_ then
      fail (.domain (makeError .notFound "cross-mount copy source not found" sourcePath destinationPath))
    else if sourceInfo.type = .symlink ∧ options.symlinks = .reject then
      fail (.domain (makeError .notSupported "cross-mount copy rejected a symbolic link" sourcePath destinationPath))
    else
      let destinationInfo : FileInfo ← (forward destination (.getInfo destinationPath { symlinkMode := .doNotFollow })).inl
      if sourceInfo.type = .symlink ∧ options.symlinks = .preserve then
        (copySymlink source destination options sourcePath destinationPath destinationInfo).inl
      else
        let sourceInfo ← (followSource source sourcePath destinationPath sourceInfo).inl
        if sourceInfo.type = .directory then
          copyDirectoryTracked source destination options
            (fun entry => copyTracked fuel entry.path (destinationPath.join entry.name.view)) fuel sourcePath destinationPath
            sourceInfo destinationInfo
        else if sourceInfo.type ≠ .file then
          fail (.domain
            (makeError .notSupported "cross-mount copy is unsupported for this entry type" sourcePath destinationPath))
        else
          (copyRegularFile source destination options fuel sourcePath destinationPath sourceInfo destinationInfo).inl

end

section

/-- The directories and regular files of a source, and what it says of them, links followed or not. Every directory has an
    identity of its own. -/
structure SourceTree (Directory File : Type) where
  directoryAt : Path → Option Directory
  fileAt : Path → Option File
  info : Path → SymlinkMode → FileInfo
  identity : Directory → FileIdentity
  entries : Directory → List DirectoryEntry
  content : File → Bytes
  valid : ∀ d, (identity d).valid = true
  unique : ∀ d d', (identity d).device = (identity d').device → (identity d).inode = (identity d').inode → d = d'
  described : ∀ path mode, (info path mode).type = .directory →
    ∃ d, directoryAt path = some d ∧ (info path mode).identity = identity d

/-- What the enumerators and files that a source has handed out have still to give. -/
structure SourceState where
  listings : DirectoryEnumerator → List DirectoryEntry := fun _ => []
  contents : FileHandle → Bytes := fun _ => []
  handles : Nat := 0

variable {Directory File : Type} (tree : SourceTree Directory File)

/-- Any call may fail. Entries come in any order, and bytes in pieces of any size. -/
def SourceTree.Does (s : SourceState) : (kind : Kind) → (call : Call kind) → Except IOError kind.Carrier → SourceState → Prop
  | _, .getInfo path options, .ok info, s' => s' = s ∧ info = tree.info path options.symlinkMode
  | _, .enumerate path _, .ok enumerator, s' =>
    ∃ d listing, tree.directoryAt path = some d ∧ listing.Perm (tree.entries d) ∧ enumerator = ⟨s.handles⟩ ∧
      s' = { s with listings := update s.listings enumerator listing, handles := s.handles + 1 }
  | _, .next enumerator, .ok none, s' => s' = s ∧ s.listings enumerator = []
  | _, .next enumerator, .ok (some entry), s' =>
    ∃ rest, s.listings enumerator = entry :: rest ∧ s' = { s with listings := update s.listings enumerator rest }
  | _, .openFile path _, .ok file, s' =>
    ∃ f, tree.fileAt path = some f ∧ file = ⟨s.handles⟩ ∧
      s' = { s with contents := update s.contents file (tree.content f), handles := s.handles + 1 }
  | _, .read file size, .ok data, s' =>
    data <+: s.contents file ∧ data.length ≤ size ∧ (data = [] → size = 0 ∨ s.contents file = []) ∧
      s' = { s with contents := update s.contents file ((s.contents file).drop data.length) }
  | _, _, _, s' => s' = s

def SourceTree.Answers (source : MountId) (s : SourceState) : (question : Question) → Answer question → SourceState → Prop
  | .call mount kind call, answer, s' => if mount = source then tree.Does s kind call answer s' else s' = s
  | _, _, s' => s' = s

structure SourceState.Extends (s s' : SourceState) : Prop where
  more : s.handles ≤ s'.handles
  listings : ∀ enumerator, enumerator.number < s.handles → s'.listings enumerator = s.listings enumerator
  contents : ∀ file, file.number < s.handles → s'.contents file = s.contents file

theorem SourceState.Extends.refl (s : SourceState) : s.Extends s := ⟨le_refl _, fun _ _ => rfl, fun _ _ => rfl⟩

theorem SourceState.Extends.trans {s s' s'' : SourceState} (first : s.Extends s') (second : s'.Extends s'') : s.Extends s'' where
  more := first.more.trans second.more
  listings := fun enumerator old =>
    (second.listings enumerator (lt_of_lt_of_le old first.more)).trans (first.listings enumerator old)
  contents := fun file old => (second.contents file (lt_of_lt_of_le old first.more)).trans (first.contents file old)

def Call.continues {kind : Kind} : Call kind → Bool
  | .next _ | .read _ _ => true
  | _ => false

variable {tree} {source : MountId} {s s' : SourceState}

theorem SourceTree.Answers.extends_ {mount : MountId} {kind : Kind} {call : Call kind} {answer : Except IOError kind.Carrier}
    (answered : tree.Answers source s (.call mount kind call) answer s') (new : call.continues = false) : s.Extends s' := by
  unfold SourceTree.Answers at answered
  dsimp only at answered
  split at answered
  · cases answer with
    | error e =>
      cases call <;> exact answered ▸ .refl s
    | ok reply =>
      cases call with
      | next => cases new
      | read => cases new
      | getInfo => exact answered.1 ▸ .refl s
      | enumerate =>
        obtain ⟨d, listing, -, -, rfl, rfl⟩ := answered
        refine ⟨le_succ _, fun enumerator old => update_of_ne ?_ _ _, fun _ _ => rfl⟩
        rintro rfl
        exact lt_irrefl _ old
      | openFile =>
        obtain ⟨f, -, rfl, rfl⟩ := answered
        refine ⟨le_succ _, fun _ _ => rfl, fun file old => update_of_ne ?_ _ _⟩
        rintro rfl
        exact lt_irrefl _ old
      | _ => exact answered ▸ .refl s
  · exact answered ▸ .refl s

end

section

variable {Directory File : Type} {tree : SourceTree Directory File} {source mount : MountId} {α β : Type} {kind : Kind}

theorem guarantees_forward {call : Call kind} {s : SourceState} {post : kind.Carrier → SourceState → Prop}
    {failed : Failure → SourceState → Prop}
    (good : ∀ reply s', tree.Answers source s (.call mount kind call) (.ok reply) s' → post reply s')
    (bad : ∀ e s', tree.Answers source s (.call mount kind call) (.error e) s' → failed (.domain e) s') :
    Guarantees (α := no_index kind.Carrier) (tree.Answers source) (fun _ => True) (forward mount call) s post failed := by
  refine ⟨True.intro, ?_⟩
  intro answer s' answered
  cases answer with
  | ok reply => exact ⟨True.intro, good reply s' answered⟩
  | error e => exact ⟨True.intro, bad e s' answered⟩

/-- A program that comes to its end, and leaves alone what was handed out before. -/
def Straight (tree : SourceTree Directory File) (source : MountId) (x : Task α) : Prop :=
  ∀ s, x.Guarantees (tree.Answers source) (fun _ => True) s (fun _ s' => s.Extends s') fun _ s' => s.Extends s'

theorem straight_pure (a : α) : Straight tree source (pure a) := fun s => ⟨True.intro, .refl s⟩

theorem straight_fail (e : Failure) : Straight tree source (fail e : Task α) := fun s => ⟨True.intro, .refl s⟩

theorem straight_forward {call : Call kind} (new : call.continues = false) :
    Straight (α := no_index kind.Carrier) tree source (forward mount call) := by
  intro s
  apply guarantees_forward
  · exact fun _ _ answered => answered.extends_ new
  · exact fun _ _ answered => answered.extends_ new

theorem Straight.bind {x : Task α} {f : α → Task β} (first : Straight tree source x)
    (next : ∀ a, Straight tree source (f a)) : Straight tree source (x >>= f) := by
  intro s
  apply guarantees_bind
  apply (first s).mono
  · intro a s' extended
    apply (next a s').mono
    · exact fun _ _ further => extended.trans further
    · exact fun _ _ further => extended.trans further
  · exact fun _ _ extended => extended

theorem Straight.attempt {x : Task α} (h : Straight tree source x) : Straight tree source x.attempt :=
  fun s => guarantees_attempt (h s)

theorem Straight.onFailure {x : Task α} {repair : Task Unit} (h : Straight tree source x)
    (repairs : Straight tree source repair) : Straight tree source (x.onFailure repair) := by
  refine h.attempt.bind fun result => ?_
  cases result with
  | ok a => exact straight_pure a
  | error e => exact repairs.attempt.bind fun _ => straight_fail e

theorem Straight.ite {p : Prop} [Decidable p] {x y : Task α} (yes : Straight tree source x) (no : Straight tree source y) :
    Straight tree source (if p then x else y) := by
  by_cases h : p
  · rwa [if_pos h]
  · rwa [if_neg h]

variable {destination : MountId} {options : CopyOptions} {sourcePath destinationPath path : Path}
  {sourceInfo destinationInfo : FileInfo}

theorem removeCopiedPath_straight : Straight tree source (removeCopiedPath mount path) := by
  apply (straight_forward rfl).bind
  intro info
  apply Straight.ite (straight_pure _)
  exact .ite (straight_forward rfl) (straight_forward rfl)

theorem copyCleanup_straight (active : Bool) : Straight tree source (copyCleanup mount path active) := by
  exact .ite removeCopiedPath_straight (straight_pure _)

theorem closeFile_straight (file : FileHandle) : Straight tree source (closeFile mount file) := by
  exact (straight_forward rfl).attempt.bind fun _ => straight_pure _

theorem keepPermissions_straight : Straight tree source (keepPermissions mount options path sourceInfo) := by
  exact .ite (straight_forward rfl) (straight_pure _)

theorem createMissing_straight (create : Bool) (options : DirectoryCreateOptions) :
    Straight tree source (createMissing mount path create options) := by
  exact .ite (straight_forward rfl) (straight_pure _)

theorem clearEntry_straight (message : String) (secondary : Path) :
    Straight tree source (clearEntry mount options path (failure .alreadyExists message path secondary)) := by
  exact .ite removeCopiedPath_straight (straight_fail _)

theorem clearDestination_straight (message : String) (secondary : Path) : Straight tree source
      (clearDestination mount options path destinationInfo (failure .alreadyExists message path secondary)) := by
  apply Straight.ite
  · exact (clearEntry_straight message secondary).bind fun _ => straight_pure _
  · exact straight_pure _

theorem copySymlink_straight :
    Straight tree source (copySymlink source destination options sourcePath destinationPath destinationInfo) := by
  have link : ∀ target : Path, Straight tree source (forward destination (.createSymlink target destinationPath)) :=
    fun _ => straight_forward rfl
  apply Straight.ite
  · exact (clearEntry_straight _ _).bind fun _ => (straight_forward rfl).bind link
  · exact (straight_forward rfl).bind link

theorem writeBuffer_straight (file : FileHandle) (fuel : Nat) (data : Bytes) (enough : data.length < fuel) :
    Straight tree source (writeBuffer mount file sourcePath destinationPath fuel data) := by
  induction fuel generalizing data with
  | zero => omega
  | succ fuel ih =>
    unfold writeBuffer
    by_cases nothing : data = []
    · rw [if_pos nothing]
      exact straight_pure _
    rw [if_neg nothing]
    have something : 0 < data.length := length_pos_iff.mpr nothing
    apply (straight_forward rfl).bind
    intro (count : Nat)
    by_cases zero : count = 0
    · rw [if_pos zero]
      exact straight_fail _
    rw [if_neg zero]
    apply ih
    rw [length_drop]
    omega

theorem copyContent_straight {start s : SourceState} (input output : FileHandle) (new : start.handles ≤ input.number)
    (isOpen : input.number < s.handles) (extended : start.Extends s) (fuel : Nat)
    (enough : (s.contents input).length + 1 < fuel) :
    (copyContent source destination input output sourcePath destinationPath fuel).Guarantees (tree.Answers source)
      (fun _ => True) s (fun _ s' => start.Extends s') fun _ s' => start.Extends s' := by
  induction fuel generalizing s with
  | zero => omega
  | succ fuel ih =>
    apply guarantees_bind
    apply guarantees_forward
    · intro (data : Bytes) s' answered
      simp only [SourceTree.Answers] at answered
      obtain ⟨taken, -, -, rfl⟩ := answered
      have within := taken.length_le
      have extended' : start.Extends
          { s with contents := update s.contents input ((s.contents input).drop data.length) } := by
        refine ⟨extended.more, extended.listings, fun file old => ?_⟩
        have other : file ≠ input := by
          rintro rfl
          omega
        exact (update_of_ne other _ _).trans (extended.contents file old)
      by_cases nothing : data = []
      · rw [if_pos nothing]
        exact ⟨True.intro, extended'⟩
      rw [if_neg nothing]
      have something : 0 < data.length := length_pos_iff.mpr nothing
      apply guarantees_bind
      apply (writeBuffer_straight output fuel data (by omega) _).mono
      · intro _ s'' further
        apply ih (lt_of_lt_of_le isOpen further.more) (extended'.trans further)
        rw [further.contents input isOpen]
        simp only [update_self, length_drop]
        omega
      · exact fun _ _ further => extended'.trans further
    · intro e s' answered
      simp only [SourceTree.Answers] at answered
      obtain rfl : s' = s := answered
      exact extended

theorem copyRegularFile_straight (fuel : Nat) (enough : ∀ f, (tree.content f).length + 1 < fuel) : Straight tree source
      (copyRegularFile source destination options fuel sourcePath destinationPath sourceInfo destinationInfo) := by
  intro s
  apply guarantees_bind
  apply guarantees_forward
  · intro input s₁ answered
    have extended := answered.extends_ rfl
    simp only [SourceTree.Answers] at answered
    obtain ⟨f, -, rfl, opened⟩ := answered
    have isOpen : s.handles < s₁.handles := by
      rw [opened]
      exact lt_succ_self _
    have content : s₁.contents ⟨s.handles⟩ = tree.content f := by
      rw [opened]
      exact update_self _ _ _
    apply guarantees_bind
    apply guarantees_forward
    · intro output s₂ answered
      have further := answered.extends_ rfl
      have room : (s₂.contents ⟨s.handles⟩).length + 1 < fuel := by
        rw [further.contents ⟨s.handles⟩ isOpen, content]
        exact enough f
      apply guarantees_bind
      apply guarantees_attempt
      apply (copyContent_straight ⟨s.handles⟩ output (le_refl _) (lt_of_lt_of_le isOpen further.more)
        (extended.trans further) fuel room).mono
      · intro _ s₃ copied
        have rest : Straight tree source (do
            closeFile source ⟨s.handles⟩
            closeFile destination output
            keepPermissions destination options destinationPath sourceInfo) :=
          (closeFile_straight _).bind fun _ => (closeFile_straight _).bind fun _ => keepPermissions_straight
        apply (rest s₃).mono
        · exact fun _ _ last => copied.trans last
        · exact fun _ _ last => copied.trans last
      intro e s₃ copied
      have rest : Straight tree source (do
          closeFile source ⟨s.handles⟩
          closeFile destination output
          let _ ← (copyCleanup destination destinationPath (!destinationInfo.exists_ && options.cleanupOnFailure)).attempt
          fail e : Task Unit) :=
        (closeFile_straight _).bind fun _ => (closeFile_straight _).bind fun _ =>
          (copyCleanup_straight _).attempt.bind fun _ => straight_fail e
      apply (rest s₃).mono
      · exact fun _ _ last => copied.trans last
      · exact fun _ _ last => copied.trans last
    · exact fun _ _ answered => extended.trans (answered.extends_ rfl)
  · exact fun _ _ answered => answered.extends_ rfl

end

section

/-- The vector, and the calls under way, the latest first, each with the directory whose entries it is copying. -/
structure CopyStack where
  active : List FileIdentity := []
  calls : List (Option FileIdentity) := []

namespace CopyStack

def path (t : CopyStack) : List FileIdentity := t.calls.reduceOption.reverse

/-- What becomes of the vector and the calls. In an orderly run no call returns between its push and its pop. -/
def Answers (orderly : Prop) (t : CopyStack) : (question : ListQuestion) → ListAnswer question → CopyStack → Prop
  | .active, active, t' => t' = t ∧ active = t.active
  | .push identity, _, t' => t' = { active := t.active ++ [identity], calls := some identity :: t.calls.tail }
  | .pop, _, t' => t' = { active := t.active.dropLast, calls := none :: t.calls.tail }
  | .enter, _, t' => t' = { t with calls := none :: t.calls }
  | .leave, _, t' => t' = { t with calls := t.calls.tail } ∧ (orderly → ∀ identity, t.calls.head? ≠ some (some identity))

/-- The vector and the calls while a directory's entries are copied in a call from `t`. -/
def pushed (t : CopyStack) (identity : FileIdentity) : CopyStack where
  active := t.active ++ [identity]
  calls := some identity :: t.calls

def entered (t : CopyStack) : CopyStack := { t with calls := none :: t.calls }

theorem path_pushed (t : CopyStack) (identity : FileIdentity) : (t.pushed identity).path = t.path ++ [identity] := by
  simp [path, pushed]

theorem path_tail {t : CopyStack} {identity : FileIdentity} (marked : t.calls.head? = some (some identity)) :
    t.path = { t with calls := t.calls.tail }.path ++ [identity] := by
  obtain ⟨below, calls⟩ := head?_eq_some_iff.mp marked
  rw [path, path, calls, tail_cons, reduceOption_cons_of_some, reverse_cons]

end CopyStack

variable {Directory File : Type} {tree : SourceTree Directory File} {orderly : Prop}

structure Sound (tree : SourceTree Directory File) (orderly : Prop) (t : CopyStack) : Prop where
  distinct : t.path.Nodup
  directories : ∀ identity ∈ t.path, ∃ d, tree.identity d = identity
  depth : t.calls.length ≤ t.path.length + 1
  listed : orderly → t.active = t.path

structure Ready (tree : SourceTree Directory File) (t : CopyStack) : Prop where
  distinct : t.path.Nodup
  directories : ∀ identity ∈ t.path, ∃ d, tree.identity d = identity
  depth : t.calls.length = t.path.length
  listed : t.active = t.path

theorem Ready.sound {t : CopyStack} (ready : Ready tree t) : Sound tree orderly t where
  distinct := ready.distinct
  directories := ready.directories
  depth := ready.depth.le.trans (le_succ _)
  listed := fun _ => ready.listed

theorem Ready.outside {t : CopyStack} (ready : Ready tree t) {active : List FileIdentity} (same : orderly → active = t.active) :
    Sound tree orderly { active, calls := none :: t.calls } where
  distinct := ready.distinct
  directories := ready.directories
  depth := succ_le_succ ready.depth.le
  listed := fun holds => (same holds).trans ready.listed

theorem Ready.returned {t t' : CopyStack} (ready : Ready tree t) (calls : t'.calls = t.calls)
    (same : orderly → t'.active = t.active) : Sound tree orderly t' := by
  have path : t'.path = t.path := by rw [CopyStack.path, calls, CopyStack.path]
  refine ⟨path ▸ ready.distinct, path ▸ ready.directories, ?_, fun holds => ?_⟩
  · rw [calls, path]
    exact ready.depth.le.trans (le_succ _)
  · rw [path, same holds, ready.listed]

theorem Ready.pushed {t : CopyStack} (ready : Ready tree t) {d : Directory} (new : tree.identity d ∉ t.path) :
    Ready tree (t.pushed (tree.identity d)) where
  distinct := by
    rw [CopyStack.path_pushed]
    exact ready.distinct.append (List.nodup_singleton _) (by simpa using new)
  directories := by
    intro identity mem
    rw [CopyStack.path_pushed, List.mem_append, List.mem_singleton] at mem
    rcases mem with old | rfl
    · exact ready.directories identity old
    · exact ⟨d, rfl⟩
  depth := by
    rw [CopyStack.path_pushed, List.length_append, ← ready.depth]
    rfl
  listed := by
    rw [CopyStack.path_pushed]
    exact congrArg (· ++ [tree.identity d]) ready.listed

theorem length_path_le [Fintype Directory] {t : CopyStack} (distinct : t.path.Nodup)
    (directories : ∀ identity ∈ t.path, ∃ d, tree.identity d = identity) : t.path.length ≤ Fintype.card Directory := by
  rw [← toFinset_card_of_nodup distinct]
  have within : t.path.toFinset ⊆ univ.image tree.identity := by
    intro identity mem
    obtain ⟨d, is⟩ := directories identity (mem_toFinset.mp mem)
    exact mem_image.mpr ⟨d, mem_univ d, is⟩
  exact (card_le_card within).trans card_image_le

end

section

variable {Directory File : Type} {tree : SourceTree Directory File} {orderly : Prop} {source destination : MountId}
  {options : CopyOptions} {s : SourceState} {t : CopyStack} {sourcePath destinationPath : Path}

def SourceTree.Tracks (tree : SourceTree Directory File) (source : MountId) (orderly : Prop) (st : SourceState × CopyStack) :
    (question : Question ⊕ ListQuestion) → Sum.elim Answer ListAnswer question → SourceState × CopyStack → Prop :=
  both (tree.Answers source) (CopyStack.Answers orderly) st

/-- The program keeps the vector in step with the calls until it ends in one of these ways. -/
def Keeps {α : Type} (tree : SourceTree Directory File) (source : MountId) (orderly : Prop) (x : Tracked α)
    (st : SourceState × CopyStack) (post : α → SourceState × CopyStack → Prop) (failed : SourceState × CopyStack → Prop) : Prop :=
  x.Guarantees (tree.Tracks source orderly) (fun st => Sound tree orderly st.2) st post fun _ => failed

def Returned (orderly : Prop) (start : SourceState) (t : CopyStack) (st : SourceState × CopyStack) : Prop :=
  start.Extends st.1 ∧ st.2.calls = t.calls ∧ (orderly → st.2.active = t.active)

def Returning (orderly : Prop) (start : SourceState) (t : CopyStack) (st : SourceState × CopyStack) : Prop :=
  start.Extends st.1 ∧ ∃ directory, st.2.calls = directory :: t.calls ∧
    (orderly → directory = none → st.2.active = t.active)

theorem keeps_list {question : ListQuestion} {post : ListAnswer question → SourceState × CopyStack → Prop}
    {failed : SourceState × CopyStack → Prop} (sound : Sound tree orderly t)
    (next : ∀ answer t', t.Answers orderly question answer t' → Sound tree orderly t' ∧ post answer (s, t')) :
    Keeps (α := no_index ListAnswer question) tree source orderly (ask (.inr question) pure) (s, t) post failed := by
  refine ⟨sound, ?_⟩
  rintro answer ⟨s', t'⟩ ⟨(rfl : s' = s), answered⟩
  exact next answer t' answered

theorem keeps_inl {α : Type} {x : Task α} {about : α → Prop} {post : α → SourceState × CopyStack → Prop}
    {failed : SourceState × CopyStack → Prop} (sound : Sound tree orderly t)
    (spec : x.Guarantees (tree.Answers source) (fun _ => True) s (fun a s' => s.Extends s' ∧ about a)
      fun _ s' => s.Extends s')
    (good : ∀ a s', s.Extends s' → about a → post a (s', t)) (bad : ∀ s', s.Extends s' → failed (s', t)) :
    Keeps tree source orderly x.inl (s, t) post failed := by
  apply (guarantees_inl spec fun _ => sound).mono
  · rintro a ⟨s', t'⟩ ⟨⟨extended, holds⟩, (rfl : t' = t)⟩
    exact good a s' extended holds
  · rintro _ ⟨s', t'⟩ ⟨extended, (rfl : t' = t)⟩
    exact bad s' extended

theorem keeps_straight {α : Type} {x : Task α} {post : α → SourceState × CopyStack → Prop}
    {failed : SourceState × CopyStack → Prop} (sound : Sound tree orderly t) (straight : Straight tree source x)
    (good : ∀ a s', s.Extends s' → post a (s', t)) (bad : ∀ s', s.Extends s' → failed (s', t)) :
    Keeps tree source orderly x.inl (s, t) post failed := by
  have spec : x.Guarantees (tree.Answers source) (fun _ => True) s (fun _ s' => s.Extends s' ∧ True)
      fun _ s' => s.Extends s' := (straight s).mono (fun _ _ extended => ⟨extended, True.intro⟩) fun _ _ extended => extended
  exact keeps_inl sound spec (fun a s' extended _ => good a s' extended) bad

theorem called_keeps (ready : Ready tree t) {body : Tracked Unit}
    (spec : Keeps tree source orderly body (s, t.entered) (fun _ st => s.Extends st.1 ∧ st.2 = t.entered)
      (Returning orderly s t)) :
    Keeps tree source orderly (called body) (s, t) (fun _ st => s.Extends st.1 ∧ st.2 = t) (Returned orderly s t) := by
  apply guarantees_bind
  apply keeps_list ready.sound
  rintro _ _ rfl
  refine ⟨ready.outside fun _ => rfl, ?_⟩
  apply guarantees_bind
  apply guarantees_attempt
  apply spec.kept.mono
  · rintro _ ⟨s', t'⟩ ⟨sound, extended, (rfl : t' = _)⟩
    apply guarantees_bind
    apply keeps_list sound
    rintro _ _ ⟨rfl, -⟩
    exact ⟨ready.sound, ready.sound, extended, rfl⟩
  rintro e ⟨s', t'⟩ ⟨sound, extended, directory, calls, listed⟩
  apply guarantees_bind
  apply keeps_list sound
  rintro _ _ ⟨rfl, disciplined⟩
  have returned : Returned orderly s t (s', { t' with calls := t'.calls.tail }) := by
    refine ⟨extended, congrArg tail calls, fun holds => listed holds ?_⟩
    rw [calls] at disciplined
    cases directory with
    | none => rfl
    | some identity => exact (disciplined holds identity rfl).elim
  have sound' := ready.returned returned.2.1 returned.2.2
  exact ⟨sound', sound', returned⟩

theorem copyEntriesTracked_keeps {start : SourceState} (ready : Ready tree t) {copy : DirectoryEntry → Tracked Unit}
    (copies : ∀ entry s, Keeps tree source orderly (copy entry) (s, t) (fun _ st => s.Extends st.1 ∧ st.2 = t)
      (Returned orderly s t))
    {enumerator : DirectoryEnumerator} (new : start.handles ≤ enumerator.number) (isOpen : enumerator.number < s.handles)
    (extended : start.Extends s) (fuel : Nat) (enough : (s.listings enumerator).length < fuel) :
    Keeps tree source orderly (copyEntriesTracked source enumerator copy fuel) (s, t)
      (fun _ st => start.Extends st.1 ∧ st.2 = t) (Returned orderly start t) := by
  have sound : Sound tree orderly t := ready.sound
  induction fuel generalizing s with
  | zero => omega
  | succ fuel ih =>
    apply guarantees_bind
    refine ⟨sound, ?_⟩
    rintro answer ⟨s', t'⟩ ⟨answered, (rfl : t' = t)⟩
    simp only [SourceTree.Answers] at answered
    cases answer with
    | error e =>
      obtain rfl : s' = s := answered
      exact ⟨sound, extended, rfl, fun _ => rfl⟩
    | ok next =>
      refine ⟨sound, ?_⟩
      cases next with
      | none =>
        obtain rfl : s' = s := answered.1
        exact ⟨sound, extended, rfl⟩
      | some entry =>
        obtain ⟨rest, listing, rfl⟩ := answered
        have extended' : start.Extends { s with listings := update s.listings enumerator rest } := by
          refine ⟨extended.more, fun other old => ?_, extended.contents⟩
          have differ : other ≠ enumerator := by
            rintro rfl
            omega
          exact (update_of_ne differ _ _).trans (extended.listings other old)
        apply guarantees_bind
        apply (copies entry _).mono
        · rintro _ ⟨s'', t''⟩ ⟨further, (rfl : t'' = t')⟩
          apply ih (lt_of_lt_of_le isOpen further.more) (extended'.trans further)
          have left : s''.listings enumerator = rest :=
            (further.listings enumerator isOpen).trans (update_self _ _ _)
          rw [left]
          rw [listing, length_cons] at enough
          omega
        · rintro _ ⟨s'', t''⟩ ⟨further, calls, listed⟩
          exact ⟨extended'.trans further, calls, listed⟩

theorem copyListed_keeps {sourceInfo : FileInfo} (ready : Ready tree t) {d : Directory}
    (new : tree.identity d ∉ t.path) (is : sourceInfo.identity = tree.identity d) {copy : DirectoryEntry → Tracked Unit}
    (copies : ∀ entry s, Keeps tree source orderly (copy entry) (s, t.pushed (tree.identity d))
      (fun _ st => s.Extends st.1 ∧ st.2 = t.pushed (tree.identity d)) (Returned orderly s (t.pushed (tree.identity d))))
    (fuel : Nat) (enough : ∀ d, (tree.entries d).length < fuel) (create : Bool) : Keeps tree source orderly
      (copyListed source destination options copy fuel sourcePath destinationPath sourceInfo create)
      (s, t.pushed (tree.identity d)) (fun _ st => s.Extends st.1 ∧ st.2 = t.entered) (Returning orderly s t) := by
  have ready' := ready.pushed new
  have outside : Sound tree orderly t.entered := ready.outside fun _ => rfl
  have entries : Keeps tree source orderly
      ((forward source (.enumerate sourcePath
        { recursive := false, includeFiles := true, includeDirectories := true, includeSymlinks := true })).inl >>=
        fun enumerator => copyEntriesTracked source enumerator copy fuel)
      (s, t.pushed (tree.identity d)) (fun _ st => s.Extends st.1 ∧ st.2 = t.pushed (tree.identity d))
      (Returned orderly s (t.pushed (tree.identity d))) := by
    apply guarantees_bind
    refine ⟨ready'.sound, ?_⟩
    rintro answer ⟨s', t'⟩ ⟨answered, (rfl : t' = _)⟩
    cases answer with
    | error e => exact ⟨ready'.sound, answered.extends_ rfl, rfl, fun _ => rfl⟩
    | ok enumerator =>
      have extended := answered.extends_ rfl
      simp only [SourceTree.Answers] at answered
      obtain ⟨d', listing, -, same, rfl, rfl⟩ := answered
      refine ⟨ready'.sound, ?_⟩
      apply copyEntriesTracked_keeps ready' copies (le_refl _) (lt_succ_self _) extended
      simp only [update_self, same.length_eq]
      exact enough d'
  unfold copyListed
  simp only [is, tree.valid]
  apply guarantees_bind
  apply guarantees_attempt
  apply entries.kept.mono
  · rintro _ ⟨s', t'⟩ ⟨sound, extended, (rfl : t' = _)⟩
    apply guarantees_bind
    apply keeps_list sound
    rintro _ _ rfl
    have popped : CopyStack.mk (t.pushed (tree.identity d)).active.dropLast (none :: (t.pushed (tree.identity d)).calls.tail) =
        t.entered := by
      simp [CopyStack.pushed, CopyStack.entered]
    rw [popped]
    refine ⟨outside, ?_⟩
    apply keeps_straight outside (keepPermissions_straight.onFailure (copyCleanup_straight _))
    · exact fun _ _ further => ⟨extended.trans further, rfl⟩
    · exact fun _ further => ⟨extended.trans further, none, rfl, fun _ _ => rfl⟩
  rintro e ⟨s', t'⟩ ⟨sound, extended, calls, listed⟩
  apply guarantees_bind
  apply keeps_list sound
  rintro _ _ rfl
  have calls' : none :: t'.calls.tail = none :: t.calls := by rw [show t'.calls = _ from calls]; rfl
  have listed' : orderly → t'.active.dropLast = t.active := by
    intro holds
    rw [show t'.active = _ from listed holds]
    exact dropLast_concat
  have sound' : Sound tree orderly { active := t'.active.dropLast, calls := none :: t'.calls.tail } := by
    rw [calls']
    exact ready.outside listed'
  refine ⟨sound', ?_⟩
  apply guarantees_bind
  apply keeps_straight sound' (copyCleanup_straight _).attempt
  · intro _ s'' further
    exact ⟨sound', extended.trans further, none, calls', fun holds _ => listed' holds⟩
  · intro s'' further
    exact ⟨extended.trans further, none, calls', fun holds _ => listed' holds⟩

theorem Returning.trans {s' : SourceState} {st : SourceState × CopyStack} (extended : s.Extends s')
    (returning : Returning orderly s' t st) : Returning orderly s t st :=
  ⟨extended.trans returning.1, returning.2⟩

theorem keeps_fail (ready : Ready tree t) (e : Failure) {post : Unit → SourceState × CopyStack → Prop} :
    Keeps tree source orderly (fail e) (s, t.entered) post (Returning orderly s t) :=
  ⟨ready.outside fun _ => rfl, .refl s, none, rfl, fun _ _ => rfl⟩

theorem new_of_onPath {d : Directory} (ready : Ready tree t) (apart : onPath t.active (tree.identity d) = false) :
    tree.identity d ∉ t.path := by
  intro mem
  rw [← ready.listed] at mem
  have found : onPath t.active (tree.identity d) = true :=
    any_eq_true.mpr ⟨tree.identity d, mem, by simp⟩
  rw [apart] at found
  cases found

theorem copyDirectoryTracked_keeps {sourceInfo destinationInfo : FileInfo} (ready : Ready tree t) {d : Directory}
    (is : sourceInfo.identity = tree.identity d) {copy : DirectoryEntry → Tracked Unit}
    (copies : tree.identity d ∉ t.path → ∀ entry s, Keeps tree source orderly (copy entry) (s, t.pushed (tree.identity d))
      (fun _ st => s.Extends st.1 ∧ st.2 = t.pushed (tree.identity d)) (Returned orderly s (t.pushed (tree.identity d))))
    (fuel : Nat) (enough : ∀ d, (tree.entries d).length < fuel) : Keeps tree source orderly
      (copyDirectoryTracked source destination options copy fuel sourcePath destinationPath sourceInfo destinationInfo)
      (s, t.entered) (fun _ st => s.Extends st.1 ∧ st.2 = t.entered) (Returning orderly s t) := by
  have outside : Sound tree orderly t.entered := ready.outside fun _ => rfl
  unfold copyDirectoryTracked
  by_cases single : (!options.recursive) = true
  · rw [if_pos single]
    exact keeps_fail ready _
  rw [if_neg single]
  apply guarantees_bind
  apply keeps_list outside
  rintro active _ ⟨rfl, rfl⟩
  refine ⟨outside, ?_⟩
  simp only [is, tree.valid]
  cases apart : onPath t.entered.active (tree.identity d) with
  | true =>
    exact keeps_fail ready _
  | false =>
    have new : tree.identity d ∉ t.path := new_of_onPath ready apart
    have pushed : Sound tree orderly (t.pushed (tree.identity d)) := (ready.pushed new).sound
    have early : ∀ s', s.Extends s' → Returning orderly s t (s', t.pushed (tree.identity d)) :=
      fun _ extended => ⟨extended, some (tree.identity d), rfl, fun _ impossible => nomatch impossible⟩
    apply guarantees_bind
    apply keeps_list outside
    rintro _ _ rfl
    refine ⟨pushed, ?_⟩
    apply guarantees_bind
    apply keeps_straight pushed (clearDestination_straight _ _)
    · intro create s₁ extended
      apply guarantees_bind
      apply keeps_straight pushed (createMissing_straight _ _)
      · intro _ s₂ further
        apply (copyListed_keeps ready new is (copies new) fuel enough create).mono
        · exact fun _ _ last => ⟨(extended.trans further).trans last.1, last.2⟩
        · exact fun _ _ last => last.trans (extended.trans further)
      · exact fun _ further => early _ (extended.trans further)
    · exact fun _ extended => early _ extended

def Describes (tree : SourceTree Directory File) (info : FileInfo) : Prop :=
  info.type = .directory → ∃ d, info.identity = tree.identity d

theorem getInfo_describes (mode : SymlinkMode) :
    Guarantees (α := no_index Kind.info.Carrier) (tree.Answers source) (fun _ => True)
      (forward source (.getInfo sourcePath { symlinkMode := mode })) s (fun info s' => s.Extends s' ∧ Describes tree info)
      fun _ s' => s.Extends s' := by
  apply guarantees_forward
  · intro info s' answered
    refine ⟨answered.extends_ rfl, fun isDirectory => ?_⟩
    simp only [SourceTree.Answers] at answered
    obtain ⟨-, rfl⟩ := answered
    obtain ⟨d, -, is⟩ := tree.described sourcePath mode isDirectory
    exact ⟨d, is⟩
  · exact fun _ _ answered => answered.extends_ rfl

theorem followSource_describes {sourceInfo : FileInfo} (described : Describes tree sourceInfo) :
    (followSource source sourcePath destinationPath sourceInfo).Guarantees (tree.Answers source) (fun _ => True) s
      (fun info s' => s.Extends s' ∧ Describes tree info) fun _ s' => s.Extends s' := by
  unfold followSource
  by_cases link : sourceInfo.type = .symlink
  · rw [if_pos link]
    apply guarantees_bind
    apply (getInfo_describes .follow).mono
    · intro target s' ⟨extended, described'⟩
      by_cases missing : (!target.exists_ || target.type == .symlink) = true
      · rw [if_pos missing]
        exact ⟨True.intro, extended⟩
      · rw [if_neg missing]
        exact ⟨True.intro, extended, described'⟩
    · exact fun _ _ extended => extended
  · rw [if_neg link]
    exact ⟨True.intro, .refl s, described⟩

theorem keeps_fail_after {s' : SourceState} (ready : Ready tree t) (extended : s.Extends s') (e : Failure)
    {post : Unit → SourceState × CopyStack → Prop} :
    Keeps tree source orderly (fail e) (s', t.entered) post (Returning orderly s t) :=
  ⟨ready.outside fun _ => rfl, extended, none, rfl, fun _ _ => rfl⟩

def SourceTree.bound [Fintype Directory] [Fintype File] (tree : SourceTree Directory File) : Nat :=
  Fintype.card Directory + (univ.sup fun d => (tree.entries d).length) +
    (univ.sup fun f => (tree.content f).length) + 3

variable [Fintype Directory] [Fintype File]

theorem copyTracked_keeps (fuel : Nat) (ready : Ready tree t) (enough : tree.bound ≤ fuel + t.path.length) :
    Keeps tree source orderly (copyTracked source destination options fuel sourcePath destinationPath) (s, t)
      (fun _ st => s.Extends st.1 ∧ st.2 = t) (Returned orderly s t) := by
  induction fuel generalizing s t sourcePath destinationPath with
  | zero =>
    have short := length_path_le ready.distinct ready.directories
    unfold SourceTree.bound at enough
    omega
  | succ fuel ih =>
    have short := length_path_le ready.distinct ready.directories
    have entries : ∀ d, (tree.entries d).length < fuel := by
      intro d
      have := le_sup (mem_univ d) (f := fun d => (tree.entries d).length)
      unfold SourceTree.bound at enough
      omega
    have contents : ∀ f, (tree.content f).length + 1 < fuel := by
      intro file
      have := le_sup (mem_univ file) (f := fun f => (tree.content f).length)
      unfold SourceTree.bound at enough
      omega
    have outside : Sound tree orderly t.entered := ready.outside fun _ => rfl
    apply called_keeps ready
    apply guarantees_bind
    apply keeps_inl outside (getInfo_describes .doNotFollow)
    · intro sourceInfo s₁ extended described
      by_cases missing : (!sourceInfo.exists_) = true
      · rw [if_pos missing]
        exact keeps_fail_after ready extended _
      rw [if_neg missing]
      by_cases rejected : sourceInfo.type = .symlink ∧ options.symlinks = .reject
      · rw [if_pos rejected]
        exact keeps_fail_after ready extended _
      rw [if_neg rejected]
      apply guarantees_bind
      apply keeps_straight outside (straight_forward rfl)
      · intro destinationInfo s₂ further
        have extended₂ := extended.trans further
        by_cases preserved : sourceInfo.type = .symlink ∧ options.symlinks = .preserve
        · rw [if_pos preserved]
          apply keeps_straight outside copySymlink_straight
          · exact fun _ _ last => ⟨extended₂.trans last, rfl⟩
          · exact fun _ last => ⟨extended₂.trans last, none, rfl, fun _ _ => rfl⟩
        rw [if_neg preserved]
        apply guarantees_bind
        apply keeps_inl outside (followSource_describes described)
        · intro sourceInfo s₃ further described
          have extended₃ := extended₂.trans further
          by_cases isDirectory : sourceInfo.type = .directory
          · rw [if_pos isDirectory]
            obtain ⟨d, is⟩ := described isDirectory
            apply (copyDirectoryTracked_keeps ready is ?_ fuel entries).mono
            · exact fun _ _ last => ⟨extended₃.trans last.1, last.2⟩
            · exact fun _ _ last => last.trans extended₃
            · intro new entry s
              apply ih (ready.pushed new)
              rw [CopyStack.path_pushed, length_append, length_singleton]
              omega
          rw [if_neg isDirectory]
          by_cases isFile : sourceInfo.type ≠ .file
          · rw [if_pos isFile]
            exact keeps_fail_after ready extended₃ _
          rw [if_neg isFile]
          apply keeps_straight outside (copyRegularFile_straight fuel contents)
          · exact fun _ _ last => ⟨extended₃.trans last, rfl⟩
          · exact fun _ last => ⟨extended₃.trans last, none, rfl, fun _ _ => rfl⟩
        · exact fun _ further => ⟨extended₂.trans further, none, rfl, fun _ _ => rfl⟩
      · exact fun _ further => ⟨extended.trans further, none, rfl, fun _ _ => rfl⟩
    · exact fun _ extended => ⟨extended, none, rfl, fun _ _ => rfl⟩

omit [Fintype Directory] [Fintype File] in
theorem Ready.initial : Ready tree {} := ⟨nodup_nil, fun _ impossible => (not_mem_nil impossible).elim, rfl, rfl⟩

omit [Fintype Directory] [Fintype File] in
theorem listed_step {y y' : Tracked Unit} {st st' : SourceState × CopyStack} (listed : st.2.active = st.2.path)
    (step : Step (tree.Tracks source False) (y, st) (y', st')) (listed' : st'.2.active = st'.2.path) :
    Step (tree.Tracks source True) (y, st) (y', st') := by
  cases step with
  | @answer question resume answer s s' answered =>
    refine .answer ?_
    cases question with
    | inl question => exact answered
    | inr question =>
      obtain ⟨same, answered⟩ := answered
      refine ⟨same, ?_⟩
      cases question with
      | active => exact answered
      | push identity => exact answered
      | pop => exact answered
      | enter => exact answered
      | leave =>
        obtain ⟨effect, -⟩ := answered
        refine ⟨effect, ?_⟩
        intro _ identity marked
        have longer := CopyStack.path_tail marked
        rw [effect] at listed'
        rw [← listed', ← listed] at longer
        exact absurd (congrArg length longer) (by simp)

/-- A copy comes to its end, however links lead, and goes no deeper than there are directories. As long as no call returns
    between its push and its pop, and no longer, the list is the path. -/
theorem copyTracked_cycles {fuel : Nat} (enough : tree.bound ≤ fuel) : (∀ st, ¬Reaches (tree.Tracks source False)
        (copyTracked source destination options fuel sourcePath destinationPath, (s, {})) (pause, st)) ∧
      (∀ y st, Reaches (tree.Tracks source False)
          (copyTracked source destination options fuel sourcePath destinationPath, (s, {})) (y, st) →
        st.2.calls.length ≤ Fintype.card Directory + 1) ∧
      ∀ y st, Reaches (tree.Tracks source True)
          (copyTracked source destination options fuel sourcePath destinationPath, (s, {})) (y, st) →
        st.2.active = st.2.path ∧ st.2.active.Nodup ∧
          ∀ y' st', Step (tree.Tracks source False) (y, st) (y', st') →
            (st'.2.active = st'.2.path ↔ Step (tree.Tracks source True) (y, st) (y', st')) := by
  have any : Keeps tree source False (copyTracked source destination options fuel sourcePath destinationPath) (s, {}) _ _ :=
    copyTracked_keeps fuel .initial enough
  have orderly : Keeps tree source True (copyTracked source destination options fuel sourcePath destinationPath) (s, {}) _ _ :=
    copyTracked_keeps fuel .initial enough
  refine ⟨fun st => any.unpaused, fun y st run => ?_, fun y st run => ?_⟩
  · have sound := any.keeps_all run
    exact sound.depth.trans (succ_le_succ (length_path_le sound.distinct sound.directories))
  · have sound := orderly.keeps_all run
    have listed := sound.listed True.intro
    refine ⟨listed, listed ▸ sound.distinct, fun y' st' step => ⟨listed_step listed step, fun step' => ?_⟩⟩
    exact (orderly.keeps_all (run.tail step')).listed True.intro

def loopIdentity : FileIdentity := { inode := 1, valid := true }

def loop : SourceTree Unit Empty where
  directoryAt := fun _ => some ()
  fileAt := fun _ => none
  info path mode :=
    if path = ⟨[0x61, 0x2F, 0x6C]⟩ ∧ mode = .doNotFollow then { type := .symlink, exists_ := true }
    else { type := .directory, exists_ := true, identity := loopIdentity }
  identity := fun _ => loopIdentity
  entries := fun _ => [{ path := ⟨[0x61, 0x2F, 0x6C]⟩, name := ⟨[0x6C]⟩, type := .symlink }]
  content := Empty.elim
  valid := fun _ => rfl
  unique := fun _ _ _ _ => rfl
  described := by
    intro path mode isDirectory
    by_cases link : path = ⟨[0x61, 0x2F, 0x6C]⟩ ∧ mode = .doNotFollow
    · rw [if_pos link] at isDirectory
      cases isDirectory
    · exact ⟨(), rfl, by rw [if_neg link]⟩

theorem copyTracked_cycles_loop : loop.bound ≤ 5 ∧ ∀ st, ¬Reaches (loop.Tracks 0 False)
    (copyTracked 0 1 { recursive := true, symlinks := .follow } 5 ⟨[0x61]⟩ ⟨[0x62]⟩, ({}, {})) (pause, st) :=
  ⟨by decide, (copyTracked_cycles (by decide)).1⟩

theorem copyTracked_stale :
    ∃ e st, Reaches (loop.Tracks 0 False)
        (copyTracked 0 1 { recursive := true, symlinks := .follow } 5 ⟨[0x61]⟩ ⟨[0x62]⟩, ({}, {})) (done (.error e), st) ∧
      st.2.calls = [] ∧ st.2.active = [loopIdentity] := by
  let described : Except IOError FileInfo := .ok { type := .directory, exists_ := true, identity := loopIdentity }
  let inTheWay : Except IOError FileInfo := .ok { type := .file, exists_ := true }
  refine ⟨.domain (makeError .alreadyExists "destination exists" ⟨[0x62]⟩ ⟨[0x61]⟩), ({}, { active := [loopIdentity] }), ?_, rfl,
    rfl⟩
  apply reaches_answer () ({}, { calls := [none] }) ⟨rfl, rfl⟩
  apply reaches_answer described ({}, { calls := [none] }) ⟨⟨rfl, rfl⟩, rfl⟩
  apply reaches_answer inTheWay ({}, { calls := [none] }) ⟨rfl, rfl⟩
  apply reaches_answer ([] : List FileIdentity) ({}, { calls := [none] }) ⟨rfl, rfl, rfl⟩
  apply reaches_answer () ({}, { active := [loopIdentity], calls := [some loopIdentity] }) ⟨rfl, rfl⟩
  apply reaches_answer () ({}, { active := [loopIdentity] }) ⟨rfl, rfl, fun impossible => impossible.elim⟩
  exact .refl

end

end NginBase.IO
