import NginBase.IO.LocalMounts
import NginBase.IO.VirtualSession

namespace NginBase.IO.Path

open Location List

section

structure NormalRoot (base : Path) : Prop where
  absolute : base.isAbsolute = true
  normal : base.lexicallyNormal = base

/-- The path itself, or the path with components after it of which none is `.` or `..`. -/
def Below (base path : Path) : Prop :=
  ∃ added : List Bytes, (∀ component ∈ added, Clean component ∧ component ≠ dot ∧ component ≠ dotDot) ∧
    path = base.join (joined added)

variable {base path : Path} {d : Bytes} {names : List Bytes}

theorem NormalRoot.written (normal : NormalRoot base) :
    base = ⟨text (drive base.view) true (location base.view).names⟩ := by
  have rooted_ := (isAbsolute_eq base).symm.trans normal.absolute
  have same := normal.normal
  rw [lexicallyNormal_eq, rooted_] at same
  exact same.symm

theorem NormalRoot.components_names (normal : NormalRoot base) : base.components = (location base.view).names := by
  have clean : ∀ s ∈ (location base.view).names, Clean s := stack_clean true (location_named base.view)
  have read := components_text (drive_isDrive base.view) clean plain_rooted
  rw [← normal.written] at read
  exact read

theorem normalRoot_text (isDrive : IsDrive d) (named : (⟨0, names⟩ : Location).Named) : NormalRoot ⟨text d true names⟩ where
  absolute := (isAbsolute_eq _).trans (rooted_text isDrive (stack_clean true named) plain_rooted)
  normal := normal_of_plain isDrive named plain_rooted

theorem below_text (isDrive : IsDrive d) (named : (⟨0, names⟩ : Location).Named) {all : List Bytes}
    (tidy : (⟨0, all⟩ : Location).Named) : Below ⟨text d true names⟩ ⟨text d true all⟩ ↔ names <+: all := by
  have clean : ∀ s ∈ names, Clean s := stack_clean true named
  have allClean : ∀ s ∈ all, Clean s := stack_clean true tidy
  constructor
  · intro ⟨added, allowed, is⟩
    rw [join_joined isDrive clean (.inl rfl) added fun s mem => (allowed s mem).1] at is
    have bothClean : ∀ s ∈ names ++ added, Clean s := by
      intro s mem
      rcases mem_append.mp mem with mem | mem
      · exact clean s mem
      · exact (allowed s mem).1
    have same := congrArg (segments ·.view) is
    rw [segments_text isDrive allClean plain_rooted,
      segments_text isDrive bothClean plain_rooted] at same
    exact ⟨added, same.symm⟩
  · intro ⟨added, is⟩
    subst is
    have allowed : ∀ s ∈ added, Clean s ∧ s ≠ dot ∧ s ≠ dotDot :=
      fun s mem => tidy s (mem_append_right _ mem)
    exact ⟨added, allowed, (join_joined isDrive clean (.inl rfl) added fun s mem => (allowed s mem).1).symm⟩

theorem Below.length_le (below : Below base path) : base.view.length ≤ path.view.length := by
  obtain ⟨added, -, rfl⟩ := below
  unfold join
  split
  · exact Nat.le_refl _
  split
  · simp only [length_append]
    omega
  · simp

theorem Below.trans {further : Path} (normal : NormalRoot base) (first : Below base path) (second : Below path further) :
    Below base further := by
  obtain ⟨added, allowed, rfl⟩ := first
  obtain ⟨more, permitted, rfl⟩ := second
  have isDrive := drive_isDrive base.view
  have clean : ∀ s ∈ (location base.view).names, Clean s := stack_clean true (location_named base.view)
  have addedClean : ∀ s ∈ added, Clean s := fun s mem => (allowed s mem).1
  have moreClean : ∀ s ∈ more, Clean s := fun s mem => (permitted s mem).1
  have bothClean : ∀ s ∈ (location base.view).names ++ added, Clean s := by
    intro s mem
    rcases mem_append.mp mem with mem | mem
    · exact clean s mem
    · exact addedClean s mem
  have joinedClean : ∀ s ∈ added ++ more, Clean s := by
    intro s mem
    rcases mem_append.mp mem with mem | mem
    · exact addedClean s mem
    · exact moreClean s mem
  refine ⟨added ++ more, ?_, ?_⟩
  · intro s mem
    rcases mem_append.mp mem with mem | mem
    · exact allowed s mem
    · exact permitted s mem
  · rw [normal.written, join_joined isDrive clean (.inl rfl) added addedClean,
      join_joined isDrive bothClean (.inl rfl) more moreClean,
      join_joined isDrive clean (.inl rfl) _ joinedClean, append_assoc]

/-- The segments of a text when it is read behind a directory: its drive is the start of the first of them. -/
def glued (drive : Bytes) : List Bytes → List Bytes
  | [] => [drive]
  | first :: others => (drive ++ first) :: others

variable {letter : UInt8} {parts : List Bytes} {place : Location}

theorem text_glued : text [letter, 0x3A] false parts = joined (glued [letter, 0x3A] parts) := by
  cases parts with
  | nil => simp [text, joined, glued]
  | cons first others => simp [text, joined, glued]

theorem drive_named (alpha : isAlpha letter = true) (rest : Bytes) (clean : ∀ c ∈ rest, isSeparator c = false) :
    Clean (letter :: 0x3A :: rest) ∧ letter :: 0x3A :: rest ≠ dot ∧ letter :: 0x3A :: rest ≠ dotDot := by
  refine ⟨⟨by simp, ?_⟩, by simp [dot], by simp [dotDot]⟩
  intro c mem
  rcases mem_cons.mp mem with rfl | mem
  · exact separator_letter alpha
  rcases mem_cons.mp mem with rfl | mem
  · decide
  · exact clean c mem

theorem glued_clean (alpha : isAlpha letter = true) (clean : ∀ s ∈ parts, Clean s) :
    ∀ s ∈ glued [letter, 0x3A] parts, Clean s := by
  intro s mem
  cases parts with
  | nil =>
    rw [mem_singleton.mp mem]
    exact (drive_named alpha [] (by simp)).1
  | cons first others =>
    rcases mem_cons.mp mem with rfl | mem
    · exact (drive_named alpha first (clean first (by simp)).2).1
    · exact clean s (mem_cons_of_mem _ mem)

theorem join_follow (normal : NormalRoot base) (clean : ∀ s ∈ parts, Clean s) : (base.join (joined parts)).lexicallyNormal =
      ⟨text (drive base.view) true ((⟨0, (location base.view).names⟩ : Location).follow parts).names⟩ := by
  have isDrive := drive_isDrive base.view
  have named : (⟨0, (location base.view).names⟩ : Location).Named := location_named base.view
  have baseClean : ∀ s ∈ (location base.view).names, Clean s := stack_clean true named
  have bothClean : ∀ s ∈ (location base.view).names ++ parts, Clean s := by
    intro s mem
    rcases mem_append.mp mem with mem | mem
    · exact baseClean s mem
    · exact clean s mem
  have joined_ := join_joined isDrive baseClean (.inl rfl) parts clean
  rw [← normal.written] at joined_
  have there : (⟨0, []⟩ : Location).follow ((location base.view).names ++ parts) =
      (⟨0, (location base.view).names⟩ : Location).follow parts := by
    have down := follow_names named ⟨0, []⟩
    unfold follow at down ⊢
    rw [foldl_append, down]
    rfl
  rw [joined_, lexicallyNormal_eq]
  rw [drive_text isDrive bothClean plain_rooted, rooted_text isDrive bothClean plain_rooted, location,
    segments_text isDrive bothClean plain_rooted, there]
  rfl

theorem follow_glued (alpha : isAlpha letter = true) (named : place.Named) (names : List Bytes) :
    names <+: ((⟨0, names⟩ : Location).follow (glued [letter, 0x3A] (place.stack false))).names ↔
      names.drop (names.length - (place.ups - 2)) <+: place.names := by
  have entered : ∀ rest : Bytes, (∀ c ∈ rest, isSeparator c = false) → ∀ others : List Bytes,
      (⟨0, names⟩ : Location).follow ((letter :: 0x3A :: rest) :: others) =
        (⟨0, names ++ [letter :: 0x3A :: rest]⟩ : Location).follow others := by
    intro rest clean others
    obtain ⟨⟨some_, -⟩, notDot, notDotDot⟩ := drive_named alpha rest clean
    show ((⟨0, names⟩ : Location).enter _).follow others = _
    simp [Location.enter, notDot, notDotDot]
  obtain ⟨ups, below⟩ := place
  cases ups with
  | zero =>
    refine iff_of_true ?_ (by simp)
    show names <+: ((⟨0, names⟩ : Location).follow (glued [letter, 0x3A] below)).names
    cases below with
    | nil =>
      have step := entered [] (by simp) []
      rw [glued, step]
      exact ⟨_, rfl⟩
    | cons first others =>
      have tail : (⟨0, others⟩ : Location).Named := fun s mem => named s (mem_cons_of_mem _ mem)
      have step := entered first (named first (by simp)).1.2 others
      rw [show glued [letter, 0x3A] (first :: others) = (letter :: 0x3A :: first) :: others from rfl, step,
        show others = (⟨0, others⟩ : Location).names from rfl, follow_names tail]
      exact ⟨[letter :: 0x3A :: first] ++ others, by simp⟩
  | succ ups =>
    have tail : (⟨0, below⟩ : Location).Named := named
    have step := entered dotDot (by simp [dotDot, isSeparator]) (replicate ups dotDot ++ below)
    have written : glued [letter, 0x3A] ((⟨ups + 1, below⟩ : Location).stack false) =
        (letter :: 0x3A :: dotDot) :: (replicate ups dotDot ++ below) := by
      simp [stack, replicate_succ, glued]
    have popped := follow_pops (names ++ [letter :: 0x3A :: dotDot]) ups
    have down := follow_names tail
    unfold follow at step popped down ⊢
    rw [written, step, foldl_append, popped, down]
    rw [length_append, length_singleton]
    cases ups with
    | zero =>
      refine iff_of_true ?_ (by simp)
      rw [take_of_length_le (by simp), append_assoc]
      exact ⟨_, rfl⟩
    | succ ups =>
      have shorter : names.length + 1 - (ups + 1) ≤ names.length := by omega
      have left : names.length + 1 - (ups + 1) = names.length - ups := by omega
      have removed : ups + 1 + 1 - 2 = ups := by omega
      rw [take_append_of_le_length shorter, left]
      nth_rewrite 1 [← take_append_drop (names.length - ups) names]
      exact prefix_append_right_inj _

end

end NginBase.IO.Path

namespace NginBase.IO.VirtualFileSystem

open Library Path

section

variable {base path relative : Path}

/-- The condition under which an accepted path leads below the directory. Without a drive it always does. Behind a drive the
first step up is read as a part of a name and the second takes that name back. Every further one leaves a component of the
directory, and the names have to enter it again. -/
def StaysBelow (base path : Path) : Prop :=
  drive path.view = [] ∨
    base.components.drop (base.components.length - ((location path.view).ups - 2)) <+: (location path.view).names

theorem normalizeRelative_ok : normalizeRelativeHandlePath path = .ok relative ↔
    path.lexicallyNormal.isAbsolute = false ∧
      (path.lexicallyNormal.view = [] ∧ relative = ⟨dot⟩ ∨
        path.lexicallyNormal.view ≠ [] ∧ path.lexicallyNormal.startsWith ⟨dotDot⟩ = false ∧
          relative = path.lexicallyNormal) := by
  unfold normalizeRelativeHandlePath
  dsimp only
  cases path.lexicallyNormal.isAbsolute with
  | true => simp
  | false =>
    have turned : ∀ value : Path, (Except.ok value : Except IOError Path) = .ok relative ↔ relative = value := by
      intro value
      rw [Except.ok.injEq]
      exact eq_comm
    by_cases empty : path.lexicallyNormal.view = []
    · simp [isEmpty, empty, turned]
    · cases path.lexicallyNormal.startsWith ⟨dotDot⟩ with
      | true => simp [isEmpty, empty]
      | false => simp [isEmpty, empty, turned]

theorem relative_segments (rooted_ : rooted path.view = false) :
    ∃ parts, (∀ s ∈ parts, Clean s) ∧ path.lexicallyNormal.view = joined parts ∧
      (drive path.view = [] ∧ parts = (location path.view).stack false ∨
        ∃ letter, isAlpha letter = true ∧ drive path.view = [letter, 0x3A] ∧
          parts = glued [letter, 0x3A] ((location path.view).stack false)) := by
  have clean := Location.stack_clean false (location_named path.view)
  have written := congrArg Path.view (lexicallyNormal_eq path)
  rw [rooted_] at written
  rcases drive_isDrive path.view with none | ⟨letter, alpha, is⟩
  · refine ⟨_, clean, ?_, .inl ⟨none, rfl⟩⟩
    rw [written, none]
    simp [text]
  · refine ⟨_, glued_clean alpha clean, ?_, .inr ⟨letter, alpha, is, rfl⟩⟩
    rw [written, is, text_glued]

theorem accepted_names (none : drive path.view = []) (rooted_ : rooted path.view = false)
    (starts : path.lexicallyNormal.startsWith ⟨dotDot⟩ = false) : (location path.view).ups = 0 := by
  by_contra climbs
  have written := lexicallyNormal_eq path
  obtain ⟨more, count⟩ : ∃ more, (location path.view).ups = more + 1 := ⟨(location path.view).ups - 1, by omega⟩
  have up : ∀ s ∈ [dotDot], Clean s := by
    intro s mem
    rw [List.mem_singleton.mp mem]
    exact ⟨by decide, by simp [dotDot, isSeparator]⟩
  have begins : (⟨text [] false ([dotDot] ++ (List.replicate more dotDot ++ (location path.view).names))⟩ : Path).startsWith
      ⟨text [] false [dotDot]⟩ = true := startsWith_text up (.inr (by simp)) _
  rw [none, rooted_] at written
  have stacked : (location path.view).stack false =
      [dotDot] ++ (List.replicate more dotDot ++ (location path.view).names) := by
    simp [Location.stack, count, List.replicate_succ]
  rw [written, stacked] at starts
  have same : (⟨text [] false [dotDot]⟩ : Path) = ⟨dotDot⟩ := by simp [text, joined]
  rw [same] at begins
  rw [begins] at starts
  cases starts

theorem rooted_of_relative (notAbsolute : path.lexicallyNormal.isAbsolute = false) : rooted path.view = false := by
  by_contra rooted_
  rw [Bool.not_eq_false] at rooted_
  have clean := Location.stack_clean true (location_named path.view)
  rw [lexicallyNormal_eq, rooted_, isAbsolute_eq, rooted_text (drive_isDrive path.view) clean plain_rooted] at notAbsolute
  cases notAbsolute

/-- What a path given to a directory handle stands for is a normalised absolute path, and it is below the directory exactly
when the path stays there. -/
theorem target_below (normal : NormalRoot base) (accepted : normalizeRelativeHandlePath path = .ok relative) :
    NormalRoot (joinHandlePath base relative) ∧ (Below base (joinHandlePath base relative) ↔ StaysBelow base path) := by
  obtain ⟨notAbsolute, outcome⟩ := normalizeRelative_ok.mp accepted
  have baseNamed : (⟨0, (location base.view).names⟩ : Location).Named := location_named base.view
  have here : Below base base := ⟨[], by simp, rfl⟩
  obtain ⟨parts, clean, view, origin⟩ := relative_segments (rooted_of_relative notAbsolute)
  -- what is read as the directory itself has no drive
  have itself : path.lexicallyNormal.view = [] ∨ path.lexicallyNormal.view = dot → StaysBelow base path := by
    intro short
    rcases origin with ⟨none, -⟩ | ⟨letter, -, -, is⟩
    · exact .inl none
    · rw [view, is, ← text_glued] at short
      simp [text, dot] at short
  rcases outcome with ⟨empty, rfl⟩ | ⟨-, starts, rfl⟩
  · exact ⟨normal, iff_of_true here (itself (.inl empty))⟩
  unfold joinHandlePath
  split
  · rename_i short
    exact ⟨normal, iff_of_true here (itself (.inr short))⟩
  have ends := baseNamed.follow clean
  rw [view, join_follow normal clean]
  refine ⟨normalRoot_text (drive_isDrive base.view) ends, ?_⟩
  have below := below_text (drive_isDrive base.view) baseNamed ends
  rw [← normal.written] at below
  rw [below]
  unfold StaysBelow
  rw [normal.components_names]
  rcases origin with ⟨none, is⟩ | ⟨letter, alpha, is, glued_⟩
  · refine iff_of_true ?_ (.inl none)
    have level := accepted_names none (rooted_of_relative notAbsolute) starts
    have names : parts = (location path.view).names := by rw [is]; simp [Location.stack, level]
    rw [names, Location.follow_names (location_named path.view)]
    exact ⟨_, rfl⟩
  · have driven : drive path.view ≠ [] := by rw [is]; simp
    rw [glued_, follow_glued alpha (location_named path.view), or_iff_right driven]

end

section

variable (mounts : MountId → Mount)

def Operation.relative : Operation → Option (VirtualDirectoryHandle × Path)
  | existsIn handle path | getInfoIn handle path _ | openFileIn handle path _ | openDirectoryIn handle path
  | createDirectoryIn handle path _ | removeFileIn handle path _ | removeDirectoryIn handle path _
  | readSymlinkIn handle path => some (handle, path)
  | _ => none

/-- The operation of the file system on a virtual path that an operation of a handle turns into. -/
def Operation.onPath (path : Path) : Operation → Operation
  | existsIn _ _ => exists_ path
  | getInfoIn _ _ options => getInfo path options
  | openFileIn _ _ options => openFile path options
  | openDirectoryIn _ _ => openDirectory path
  | createDirectoryIn _ _ options =>
    if options.recursive then createDirectories path options else createDirectory path options
  | removeFileIn _ _ options => removeFile path options
  | removeDirectoryIn _ _ options => removeDirectory path options
  | readSymlinkIn _ _ => readSymlink path
  | operation => operation

/-- The handles that are opened one through another, while mounts come and go. `stays` restricts the paths given. -/
inductive Opened (stays : Path → Path → Prop) (first : VirtualDirectoryHandle) : VirtualDirectoryHandle → Prop
  | here : Opened stays first first
  | next (handle opened : VirtualDirectoryHandle) (table : List MountId) (path : Path)
      (before : Opened stays first handle) (allowed : stays handle.path path)
      (opens : (handle.openDirectory mounts table path).Returns opened) : Opened stays first opened

variable {mounts} {table : List MountId} {handle opened : VirtualDirectoryHandle} {operation : Operation} {path : Path}

theorem target_eq (handle : VirtualDirectoryHandle) (path : Path) :
    handle.target path = match normalizeRelativeHandlePath path with
      | .ok relative => pure (joinHandlePath handle.path relative)
      | .error e => Dialogue.fail (.domain e) := by
  unfold VirtualDirectoryHandle.target
  cases normalizeRelativeHandlePath path with
  | ok relative => rfl
  | error e => rfl

theorem perform_relative (fuel : Nat) (made : operation.relative = some (handle, path)) :
    perform mounts table fuel operation = match normalizeRelativeHandlePath path with
      | .ok relative => perform mounts table fuel (operation.onPath (joinHandlePath handle.path relative))
      | .error e => Dialogue.fail (.domain e) := by
  have target := target_eq handle path
  cases accepted : normalizeRelativeHandlePath path with
  | ok relative =>
    rw [accepted] at target
    cases operation with
    | createDirectoryIn _ _ options =>
      cases made
      simp only [perform, VirtualDirectoryHandle.createDirectory, target, Operation.onPath]
      cases options.recursive with
      | true => rfl
      | false => rfl
    | existsIn _ _ | getInfoIn _ _ _ | openFileIn _ _ _ | openDirectoryIn _ _ | removeFileIn _ _ _
    | removeDirectoryIn _ _ _ | readSymlinkIn _ _ =>
      cases made
      simp only [perform, VirtualDirectoryHandle.exists_, VirtualDirectoryHandle.getInfo, VirtualDirectoryHandle.openFile,
        VirtualDirectoryHandle.openDirectory, VirtualDirectoryHandle.removeFile, VirtualDirectoryHandle.removeDirectory,
        VirtualDirectoryHandle.readSymlink, target, Operation.onPath]
      rfl
    | _ => cases made
  | error e =>
    rw [accepted] at target
    cases operation with
    | existsIn _ _ | getInfoIn _ _ _ | openFileIn _ _ _ | openDirectoryIn _ _ | createDirectoryIn _ _ _
    | removeFileIn _ _ _ | removeDirectoryIn _ _ _ | readSymlinkIn _ _ =>
      cases made
      simp only [perform, VirtualDirectoryHandle.exists_, VirtualDirectoryHandle.getInfo, VirtualDirectoryHandle.openFile,
        VirtualDirectoryHandle.openDirectory, VirtualDirectoryHandle.createDirectory, VirtualDirectoryHandle.removeFile,
        VirtualDirectoryHandle.removeDirectory, VirtualDirectoryHandle.readSymlink, target]
      rfl
    | _ => cases made

theorem openDirectory_returns (opens : (handle.openDirectory mounts table path).Returns opened) :
    ∃ relative, normalizeRelativeHandlePath path = .ok relative ∧
      opened.path = (joinHandlePath handle.path relative).lexicallyNormal := by
  unfold VirtualDirectoryHandle.openDirectory at opens
  rw [target_eq] at opens
  cases accepted : normalizeRelativeHandlePath path with
  | error e =>
    rw [accepted] at opens
    exact opens.elim
  | ok relative =>
    rw [accepted] at opens
    refine ⟨relative, rfl, ?_⟩
    rw [Dialogue.returns_bind] at opens
    obtain ⟨target, rfl, opens⟩ := opens
    unfold openDirectory at opens
    rw [Dialogue.returns_bind] at opens
    obtain ⟨info, -, opens⟩ := opens
    split at opens
    · exact opens.elim
    split at opens
    · exact opens.elim
    · rw [← show _ = opened from opens]

theorem Opened.confined {first : VirtualDirectoryHandle} (normal : NormalRoot first.path)
    (chain : Opened mounts StaysBelow first handle) : NormalRoot handle.path ∧ Below first.path handle.path := by
  induction chain with
  | here => exact ⟨normal, [], by simp, rfl⟩
  | next handle opened table path before allowed opens ih =>
    obtain ⟨relative, accepted, is⟩ := openDirectory_returns opens
    obtain ⟨rooted_, below⟩ := target_below ih.1 accepted
    rw [is, rooted_.normal]
    exact ⟨rooted_, ih.2.trans normal (below.mpr allowed)⟩

/-- An accepted path stands for something below the directory exactly when it does not climb behind a drive. Where no path
does, handles opened one through another, and the operations made through them, stay below the first one. -/
theorem handles_confine (mounts : MountId → Mount) :
    (∀ base path relative : Path, NormalRoot base → normalizeRelativeHandlePath path = .ok relative →
      (Below base (joinHandlePath base relative) ↔ StaysBelow base path)) ∧
    (∀ first handle : VirtualDirectoryHandle, NormalRoot first.path → Opened mounts StaysBelow first handle →
      Below first.path handle.path ∧
        ∀ (table : List MountId) (fuel : Nat) (operation : Operation) (path : Path),
          operation.relative = some (handle, path) → StaysBelow handle.path path →
            (∃ target, Below first.path target ∧
              perform mounts table fuel operation = perform mounts table fuel (operation.onPath target)) ∨
            ∃ error, perform mounts table fuel operation = Dialogue.fail (.domain error)) := by
  constructor
  · intro base path relative normal accepted
    exact (target_below normal accepted).2
  · intro first handle normal chain
    obtain ⟨rooted_, below⟩ := chain.confined normal
    apply And.intro below
    intro table fuel operation path made allowed
    rw [perform_relative fuel made]
    cases accepted : normalizeRelativeHandlePath path with
    | ok relative =>
      left
      have inside := (target_below rooted_ accepted).2.mpr allowed
      exact ⟨joinHandlePath handle.path relative, below.trans normal inside, rfl⟩
    | error e =>
      right
      exact ⟨e, rfl⟩

theorem returns_forward {kind : Kind} (mount : MountId) (call : Call kind) (value : kind.Carrier) :
    (forward mount call).Returns value := ⟨(.ok value : Except IOError kind.Carrier), rfl⟩

def insideHandle : VirtualDirectoryHandle := ⟨⟨[0x2F, 0x61, 0x2F, 0x62]⟩⟩

def deeperHandle : VirtualDirectoryHandle := ⟨⟨[0x2F, 0x61, 0x2F, 0x62, 0x2F, 0x63]⟩⟩

def driveStep : Path := ⟨[0x43, 0x3A, 0x2E, 0x2E, 0x2F, 0x78]⟩

def dataMount : MountId → Mount := fun _ => (LocalMount.make ⟨[0x2F, 0x64, 0x61, 0x74, 0x61]⟩ {}).mount

theorem insideHandle_normal : NormalRoot insideHandle.path where
  absolute := by decide
  normal := by decide +kernel

theorem insideHandle_opens : (insideHandle.openDirectory dataMount [0] ⟨[0x63]⟩).Returns deeperHandle := by
  have accepted : normalizeRelativeHandlePath ⟨[0x63]⟩ = .ok ⟨[0x63]⟩ := by decide +kernel
  have target : joinHandlePath insideHandle.path ⟨[0x63]⟩ = deeperHandle.path := by decide +kernel
  have resolved : resolvePath dataMount [0] deeperHandle.path =
      .ok (0, ⟨[0x2F, 0x64, 0x61, 0x74, 0x61, 0x2F, 0x61, 0x2F, 0x62, 0x2F, 0x63]⟩) := by
    decide +kernel
  have normal : deeperHandle.path.lexicallyNormal = deeperHandle.path := by decide +kernel
  unfold VirtualDirectoryHandle.openDirectory
  rw [target_eq, accepted]
  dsimp only
  rw [Dialogue.returns_bind]
  have told : (getInfo dataMount [0] deeperHandle.path {}).Returns
      { path := deeperHandle.path, type := .directory, exists_ := true } := by
    unfold getInfo forwardTo resolve
    rw [Dialogue.returns_bind]
    exact ⟨{ type := .directory, exists_ := true }, returns_forward .., rfl⟩
  apply Exists.intro deeperHandle.path
  apply And.intro ((Dialogue.returns_pure _).mpr rfl)
  unfold openDirectory
  rw [Dialogue.returns_bind]
  apply Exists.intro _
  apply And.intro told
  rfl

theorem handles_confine_removal : Below insideHandle.path (joinHandlePath insideHandle.path driveStep) ∧
      ((∃ target, Below insideHandle.path target ∧
        perform dataMount [0] 0 (.removeFileIn deeperHandle driveStep {}) =
          perform dataMount [0] 0 (Operation.onPath target (.removeFileIn deeperHandle driveStep {}))) ∨
        ∃ error, perform dataMount [0] 0 (.removeFileIn deeperHandle driveStep {}) = Dialogue.fail (.domain error)) := by
  obtain ⟨each, runs⟩ := handles_confine dataMount
  have accepted : normalizeRelativeHandlePath driveStep = .ok driveStep := by decide +kernel
  have stays : StaysBelow insideHandle.path driveStep := .inr (by decide +kernel)
  have staysDeeper : StaysBelow deeperHandle.path driveStep := .inr (by decide +kernel)
  have driveless : StaysBelow insideHandle.path ⟨[0x63]⟩ := .inl rfl
  have chain : Opened dataMount StaysBelow insideHandle deeperHandle := by
    apply Opened.next insideHandle deeperHandle [0] ⟨[0x63]⟩ .here driveless
    exact insideHandle_opens
  constructor
  · exact (each insideHandle.path driveStep driveStep insideHandle_normal accepted).mpr stays
  · have made : Operation.relative (.removeFileIn deeperHandle driveStep {}) = some (deeperHandle, driveStep) := rfl
    have deeper := (runs insideHandle deeperHandle insideHandle_normal chain).2
    exact deeper [0] 0 (.removeFileIn deeperHandle driveStep {}) driveStep made staysDeeper

def driveClimb : Path := ⟨[0x43, 0x3A, 0x2E, 0x2E, 0x2F, 0x2E, 0x2E, 0x2F, 0x2E, 0x2E]⟩

theorem handle_escapes : ¬∀ base path relative : Path, NormalRoot base →
    normalizeRelativeHandlePath path = .ok relative → Below base (joinHandlePath base relative) := by
  intro all
  have accepted : normalizeRelativeHandlePath driveClimb = .ok driveClimb := by decide +kernel
  have parent : joinHandlePath insideHandle.path driveClimb = ⟨[0x2F, 0x61]⟩ := by decide +kernel
  have below := all insideHandle.path driveClimb driveClimb insideHandle_normal accepted
  have longer : insideHandle.path.view.length ≤ ([0x2F, 0x61] : Bytes).length := below.length_le
  exact absurd longer (by decide)

end

end NginBase.IO.VirtualFileSystem
