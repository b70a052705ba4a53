import NginBase.IO.Disk

namespace NginBase.IO

open Library Library.Dialogue Function List VirtualFileSystem Disk

variable {Name Inode : Type} {layout : Layout Name} {s s' : Disk Name Inode} {x y : Name} {inode copy : Inode}
  {content : Bytes}

section

structure Holds (s : Disk Name Inode) (x : Name) (inode : Inode) (content : Bytes) : Prop where
  node : s.nodes x = some (.file inode)
  content : s.content inode = content

theorem entry_file {path : Path} (named : layout.name path = some x) (plain : layout.link x = none)
    (node : s.nodes x = some (.file inode)) : s.entry layout path = some .file := by
  simp [entry, named, plain, node, Node.type]

theorem Holds.isFile (holds : Holds s x inode content) {path : Path} (target : layout.target path = some x) :
    s.IsFile layout path content := ⟨x, inode, target, holds.node, holds.content⟩

/-- A file is being copied: `written` is what has arrived. -/
structure Copying (x y : Name) (inode copy : Inode) (content : Bytes) (input output : FileHandle) (position : Nat)
    (written : Bytes) (s : Disk Name Inode) : Prop where
  source : Holds s x inode content
  target : Holds s y copy written
  reading : s.streams input = some { inode := some inode, position }
  writing : s.streams output = some { inode := some copy, position := written.length }

variable {input output : FileHandle} {position : Nat} {written : Bytes}

theorem overwrite_atEnd (written data : Bytes) : Disk.overwrite written written.length data = written ++ data := by
  unfold Disk.overwrite
  rw [take_length, Nat.sub_self, replicate_zero, append_nil,
    drop_eq_nil_of_le (Nat.le_add_right _ _), append_nil]

theorem Copying.reads (copying : Copying x y inode copy content input output position written s) (differ : input ≠ output)
    {size : Nat} {data : Bytes} (reads : s.Reads input size data s') (some_ : size ≠ 0) :
    data <+: content.drop position ∧ (data = [] → content.length ≤ position) ∧
      Copying x y inode copy content input output (position + data.length) written s' := by
  obtain ⟨stream, isOpen, -, bytes, rfl⟩ := reads
  rw [copying.reading] at isOpen
  cases isOpen
  obtain ⟨start, atEnd⟩ := bytes inode rfl
  rw [copying.source.content] at start atEnd
  refine ⟨start, fun nothing => (atEnd nothing).resolve_left some_, ⟨copying.source.node, copying.source.content⟩,
    ⟨copying.target.node, copying.target.content⟩, update_self _ _ _, ?_⟩
  exact (update_of_ne differ.symm _ _).trans copying.writing

/-- While the copy goes on the source is what it was, and the copy is a file. -/
def Underway (x y : Name) (inode copy : Inode) (content : Bytes) (s : Disk Name Inode) : Prop :=
  Holds s x inode content ∧ s.nodes y = some (.file copy)

theorem Copying.underway (copying : Copying x y inode copy content input output position written s) :
    Underway x y inode copy content s := ⟨copying.source, copying.target.node⟩

variable [DecidableEq Inode]

theorem Copying.writes (copying : Copying x y inode copy content input output position written s) (differ : input ≠ output)
    (apart : copy ≠ inode) {data : Bytes} {count : Nat} (writes : s.Writes output data count s') :
    Copying x y inode copy content input output position (written ++ data.take count) s' := by
  obtain ⟨stream, isOpen, bound, effect⟩ := writes
  rw [copying.writing] at isOpen
  cases isOpen
  simp only [copying.target.content, overwrite_atEnd] at effect
  subst effect
  refine ⟨⟨copying.source.node, ?_⟩, ⟨copying.target.node, update_self _ _ _⟩, ?_, ?_⟩
  · exact (update_of_ne apart.symm _ _).trans copying.source.content
  · exact (update_of_ne differ _ _).trans copying.reading
  · simp [advance, setStream, Nat.min_eq_left bound]

variable [DecidableEq Name] {source destination : MountId} {sourcePath destinationPath : Path}

theorem writeBuffer_copies (differ : input ≠ output) (apart : copy ≠ inode) (fuel : Nat) (data : Bytes)
    (copying : Copying x y inode copy content input output position written s) :
    (writeBuffer destination output sourcePath destinationPath fuel data).Leaves (Answers layout) s
      (fun _ => Copying x y inode copy content input output position (written ++ data))
      fun _ => Underway x y inode copy content := by
  induction fuel generalizing data written s with
  | zero => exact leaves_pause
  | succ fuel ih =>
    unfold writeBuffer
    rw [leaves_ite]
    constructor
    · rintro rfl
      rw [append_nil]
      exact copying
    intro _
    rw [leaves_bind, leaves_forward]
    constructor
    · intro (count : Nat) s' answered
      have copying' := copying.writes differ apart answered
      rw [leaves_ite]
      refine ⟨fun _ => copying'.underway, fun _ => ?_⟩
      have rest := ih (data.drop count) copying'
      rwa [append_assoc, take_append_drop] at rest
    · rintro _ _ rfl
      exact copying.underway

theorem copyContent_copies (differ : input ≠ output) (apart : copy = inode → content = []) (fuel : Nat)
    (copying : Copying x y inode copy content input output position (content.take position) s) :
    (copyContent source destination input output sourcePath destinationPath fuel).Leaves (Answers layout) s
      (fun _ s' => Underway x y inode copy content s' ∧ s'.content copy = content)
      fun _ => Underway x y inode copy content := by
  induction fuel generalizing position s with
  | zero => exact leaves_pause
  | succ fuel ih =>
    unfold copyContent
    rw [leaves_bind, leaves_forward]
    constructor
    · intro (data : Bytes) s' answered
      obtain ⟨start, atEnd, copying'⟩ := copying.reads differ answered (by decide)
      rw [leaves_ite]
      constructor
      · intro nothing
        have all : content.take position = content := take_of_length_le (atEnd nothing)
        exact ⟨copying'.underway, copying'.target.content.trans all⟩
      · intro something
        have apart' : copy ≠ inode := by
          intro same
          rw [apart same, drop_nil, prefix_nil] at start
          exact something start
        have more : content.take position ++ data = content.take (position + data.length) := by
          rw [take_add, ← prefix_iff_eq_take.mp start]
        rw [leaves_bind]
        apply (writeBuffer_copies differ apart' fuel data copying').mono
        · intro _ _ copying''
          rw [more] at copying''
          exact ih copying''
        · exact fun _ _ underway => underway
    · rintro _ _ rfl
      exact copying.underway

end

section

variable [DecidableEq Name] [DecidableEq Inode] {options : CopyOptions} {sourcePath destinationPath : Path}

/-- What an overwriting copy of the file `x` is opened on is another file or a new one, or an empty file's other name. -/
def Disk.OverwritesSafely (layout : Layout Name) (s : Disk Name Inode) (x : Name) (inode : Inode) (destinationPath : Path) :
    Prop :=
  ∀ y, layout.target destinationPath = some y →
    (∀ copy, s.nodes y = some (.file copy) → copy ≠ inode ∨ s.content inode = [] ∧ y ≠ x) ∧
      ∀ kind, s.nodes y = some (.special kind) → kind = .socket

theorem opens_source (holds : Holds s x inode content) (target : layout.target sourcePath = some x)
    (opens : s.Opens layout sourcePath sourceOpen s') : s' = s.opened (some inode) := by
  obtain ⟨x', target', node⟩ := opens
  rw [target] at target'
  cases target'
  rw [holds.node] at node
  rcases node with ⟨inode', same, effect⟩ | ⟨impossible, -⟩ | ⟨kind, impossible, -⟩
  · cases same
    exact effect
  · cases impossible
  · cases impossible

/-- A copy that is about to begin, and the name that it stands under. -/
structure Begins (layout : Layout Name) (destinationPath : Path) (x y : Name) (inode copy : Inode) (content : Bytes)
    (input output : FileHandle) (s : Disk Name Inode) : Prop where
  target : layout.target destinationPath = some y
  differ : y ≠ x
  apart : copy = inode → content = []
  copying : Copying x y inode copy content input output 0 [] s

theorem begins_created (holds : Holds s x inode content) (target : layout.target destinationPath = some y)
    (creates : (s.opened (some inode)).Creates y s') :
    ∃ copy, Begins layout destinationPath x y inode copy content ⟨s.handles⟩ ⟨s.handles + 1⟩ s' := by
  obtain ⟨free, copy, ⟨unused, -⟩, rfl⟩ := creates
  have differ : y ≠ x := by
    rintro rfl
    cases holds.node.symm.trans free
  have apart : copy ≠ inode := by
    rintro rfl
    exact unused x holds.node
  refine ⟨copy, target, differ, fun same => (apart same).elim, ⟨?_, ?_⟩, ⟨?_, ?_⟩, ?_, ?_⟩
  · exact (update_of_ne differ.symm _ _).trans holds.node
  · exact (update_of_ne apart.symm _ _).trans holds.content
  · exact update_self _ _ _
  · exact update_self _ _ _
  · simp [opened, setStream, setContent, setNode]
  · simp [opened, setStream, setContent, setNode]

omit [DecidableEq Name] in
theorem begins_truncated (holds : Holds s x inode content) (target : layout.target destinationPath = some y)
    (taken : s.nodes y = some (.file copy)) (safe : copy ≠ inode ∨ s.content inode = [] ∧ y ≠ x)
    (effect : s' = ((s.opened (some inode)).setContent copy []).opened (some copy)) :
    Begins layout destinationPath x y inode copy content ⟨s.handles⟩ ⟨s.handles + 1⟩ s' := by
  subst effect
  rw [holds.content] at safe
  have differ : y ≠ x := by
    rcases safe with apart | ⟨-, differ⟩
    · rintro rfl
      rw [holds.node] at taken
      cases taken
      exact apart rfl
    · exact differ
  have apart : copy = inode → content = [] := fun same => (safe.resolve_left fun apart => apart same).1
  refine ⟨target, differ, apart, ⟨holds.node, ?_⟩, ⟨taken, update_self _ _ _⟩, ?_, ?_⟩
  · by_cases same : copy = inode
    · subst same
      rw [apart rfl]
      exact update_self _ _ _
    · exact (update_of_ne (Ne.symm same) _ _).trans holds.content
  · simp [opened, setStream, setContent]
  · simp [opened, setStream, setContent]

theorem opens_destination (holds : Holds s x inode content)
    (safe : options.overwriteExisting = true → s.OverwritesSafely layout x inode destinationPath)
    (opens : (s.opened (some inode)).Opens layout destinationPath (destinationOpen options) s') :
    ∃ y copy, Begins layout destinationPath x y inode copy content ⟨s.handles⟩ ⟨s.handles + 1⟩ s' := by
  unfold Opens destinationOpen at opens
  by_cases overwrite : options.overwriteExisting = true
  · simp only [overwrite] at opens
    obtain ⟨y, target, how⟩ := opens
    obtain ⟨files, specials⟩ := safe overwrite y target
    refine ⟨y, ?_⟩
    rcases how with creates | ⟨copy, taken, effect⟩ | ⟨kind, taken, other, -⟩
    · exact begins_created holds target creates
    · exact ⟨copy, begins_truncated holds target taken (files copy taken) effect⟩
    · exact (other (specials kind taken)).elim
  · simp only [overwrite] at opens
    obtain ⟨y, named, plain, creates⟩ := opens
    exact ⟨y, begins_created holds (layout.target_plain named plain) creates⟩

end

section

variable [DecidableEq Name] [DecidableEq Inode] {source destination mount : MountId} {options : CopyOptions}
  {sourcePath destinationPath path : Path}

def Complete (layout : Layout Name) (destinationPath : Path) (x : Name) (inode : Inode) (content : Bytes)
    (s : Disk Name Inode) : Prop :=
  Holds s x inode content ∧ ∃ y copy, layout.target destinationPath = some y ∧ y ≠ x ∧ Holds s y copy content

theorem leaves_getInfo (named : layout.name path = some x) (plain : layout.link x = none)
    (node : s.nodes x = some (.file inode)) {post : FileInfo → Disk Name Inode → Prop}
    {failed : Failure → Disk Name Inode → Prop}
    (good : ∀ info : FileInfo, info.exists_ = true → info.type = .file → post info s) (bad : ∀ e, failed (.domain e) s) :
    Leaves (α := no_index Kind.info.Carrier) (Answers layout)
      (forward mount (.getInfo path { symlinkMode := .doNotFollow })) s post failed := by
  rw [leaves_forward]
  constructor
  · rintro info _ ⟨rfl, there, type⟩
    rw [entry_file named plain node] at there
    exact good info there (type _ (entry_file named plain node))
  · rintro e _ rfl
    exact bad e

theorem removeCopiedPath_holds (underway : Underway x y inode copy content s) (named : layout.name path = some y)
    (plain : layout.link y = none) (differ : y ≠ x) :
    (removeCopiedPath mount path).Leaves (Answers layout) s (fun _ s' => Holds s' x inode content)
      fun _ s' => Holds s' x inode content := by
  unfold removeCopiedPath
  rw [leaves_bind]
  apply leaves_getInfo named plain underway.2
  · intro info there isFile
    simp only [there, isFile, Bool.not_true, if_false, reduceCtorEq]
    rw [leaves_forward]
    constructor
    · rintro _ s' (⟨z, named', removed⟩ | ⟨-, nothing, rfl⟩)
      · rw [named] at named'
        cases named'
        obtain ⟨-, -, rfl⟩ := removed plain
        exact ⟨(update_of_ne differ.symm _ _).trans underway.1.node, underway.1.content⟩
      · exact underway.1
    · rintro _ _ rfl
      exact underway.1
  · exact fun _ => underway.1

theorem closeFile_same (file : FileHandle) {post : Unit → Disk Name Inode → Prop} {failed : Failure → Disk Name Inode → Prop}
    (next : post () (s.setStream file none)) : (closeFile mount file).Leaves (Answers layout) s post failed := by
  unfold closeFile
  rw [leaves_bind, leaves_attempt, leaves_forward]
  constructor
  · rintro _ _ rfl
    exact next
  · rintro _ _ rfl
    exact next

theorem keepPermissions_same {info : FileInfo} :
    (keepPermissions destination options destinationPath info).Leaves (Answers layout) s (fun _ s' => s' = s)
      fun _ s' => s' = s := by
  unfold keepPermissions
  rw [leaves_ite]
  refine ⟨fun _ => ?_, fun _ => rfl⟩
  rw [leaves_forward]
  exact ⟨fun _ _ same => same, fun _ _ same => same⟩

theorem copyRegularFile_complete (holds : Holds s x inode content) (target : layout.target sourcePath = some x)
    (safe : options.overwriteExisting = true → s.OverwritesSafely layout x inode destinationPath) (fuel : Nat)
    {sourceInfo destinationInfo : FileInfo} (there : destinationInfo.exists_ = (s.entry layout destinationPath).isSome) :
    (copyRegularFile source destination options fuel sourcePath destinationPath sourceInfo destinationInfo).Leaves
      (Answers layout) s (fun _ => Complete layout destinationPath x inode content)
      fun _ s' => Holds s' x inode content := by
  unfold copyRegularFile
  rw [leaves_bind, leaves_forward]
  refine ⟨?_, ?_⟩
  · rintro input s₁ ⟨rfl, opens⟩
    obtain rfl := opens_source holds target opens
    rw [leaves_bind, leaves_forward]
    refine ⟨?_, ?_⟩
    · rintro output s₂ ⟨rfl, opens⟩
      obtain ⟨y, copy, begins⟩ := opens_destination holds safe opens
      have differ : (⟨s.handles⟩ : FileHandle) ≠ ⟨s.handles + 1⟩ := by simp
      have copying : Copying x y inode copy content ⟨s.handles⟩ ⟨s.handles + 1⟩ 0 (content.take 0) s₂ := by
        exact begins.copying
      rw [leaves_bind, leaves_attempt]
      apply (copyContent_copies differ begins.apart fuel copying).mono
      · intro _ s₃ ⟨underway, copied⟩
        rw [leaves_bind]
        apply closeFile_same
        rw [leaves_bind]
        apply closeFile_same
        apply keepPermissions_same.mono
        · rintro _ _ rfl
          exact ⟨⟨underway.1.node, underway.1.content⟩, y, copy, begins.target, begins.differ, underway.2, copied⟩
        · rintro _ _ rfl
          exact ⟨underway.1.node, underway.1.content⟩
      · intro e s₃ underway
        rw [leaves_bind]
        apply closeFile_same
        rw [leaves_bind]
        apply closeFile_same
        have underway' : Underway x y inode copy content ((s₃.setStream ⟨s.handles⟩ none).setStream ⟨s.handles + 1⟩ none) :=
          ⟨⟨underway.1.node, underway.1.content⟩, underway.2⟩
        rw [leaves_bind, leaves_attempt]
        unfold copyCleanup
        rw [leaves_ite]
        refine ⟨fun active => ?_, fun _ => underway'.1⟩
        have nothing : s.entry layout destinationPath = none := by
          rw [there, Bool.and_eq_true] at active
          simpa using active.1
        obtain ⟨named, plain⟩ := named_of_entry_none layout begins.target nothing
        exact removeCopiedPath_holds underway' named plain begins.differ
    · rintro _ _ rfl
      exact ⟨holds.node, holds.content⟩
  · rintro _ _ rfl
    exact holds

theorem copyAcrossFileSystems_complete (holds : Holds s x inode content) (named : layout.name sourcePath = some x)
    (plain : layout.link x = none)
    (safe : options.overwriteExisting = true → s.OverwritesSafely layout x inode destinationPath) (fuel : Nat)
    (activeDirectories : List FileIdentity) :
    (copyAcrossFileSystems source destination options fuel sourcePath destinationPath activeDirectories).Leaves
      (Answers layout) s (fun _ => Complete layout destinationPath x inode content)
      fun _ s' => Holds s' x inode content := by
  cases fuel with
  | zero => exact leaves_pause
  | succ fuel =>
    unfold copyAcrossFileSystems
    rw [leaves_bind]
    apply leaves_getInfo named plain holds.node
    · intro sourceInfo there isFile
      simp only [there, isFile, Bool.not_true, reduceCtorEq, false_and, if_false]
      rw [leaves_bind, leaves_forward]
      constructor
      · rintro destinationInfo _ ⟨rfl, there', -⟩
        simp only [followSource, isFile, reduceCtorEq, if_false, leaves_bind, leaves_pure]
        exact copyRegularFile_complete holds (layout.target_plain named plain) safe fuel there'
      · rintro _ _ rfl
        exact holds
    · exact fun _ => holds

end

/-! The runs in which nothing fails: what holds at the end of every run holds at the end of these. -/
section

variable [DecidableEq Name] [DecidableEq Inode] {source destination mount : MountId} {options : CopyOptions}
  {sourcePath destinationPath path : Path} {input output : FileHandle} {position : Nat}
  {post : Unit → Disk Name Inode → Prop} {failed : Failure → Disk Name Inode → Prop}

theorem copyContent_drains (differ : input ≠ output) (fuel : Nat) (room : (s.content inode).length - position + 3 ≤ fuel)
    (reading : s.streams input = some { inode := some inode, position })
    (sink : (s.content inode).length ≤ position ∨ ∃ n, s.streams output = some { inode := none, position := n })
    (all : (copyContent source destination input output sourcePath destinationPath fuel).Leaves (Answers layout) s
      post failed) :
    ∃ s', s'.nodes = s.nodes ∧ s'.content = s.content ∧ post () s' := by
  induction fuel generalizing s position with
  | zero => omega
  | succ fuel ih =>
    unfold copyContent at all
    rw [leaves_bind, leaves_forward] at all
    by_cases atEnd : (s.content inode).length ≤ position
    · have final := all.1 [] (s.advance input _ 0)
        ⟨_, reading, by decide, fun _ same => by cases same; exact ⟨ nil_prefix, fun _ => .inr atEnd⟩, rfl⟩
      exact ⟨s.advance input _ 0, rfl, rfl, final⟩
    · obtain ⟨n, writing⟩ := sink.resolve_left atEnd
      -- One byte is read and written.
      let data := ((s.content inode).drop position).take 1
      have one : data.length = 1 := by
        simp only [data, length_take, length_drop]
        omega
      have something : data ≠ [] := by
        intro nothing
        rw [nothing] at one
        cases one
      obtain ⟨fuel, rfl⟩ : ∃ rest, fuel = rest + 2 := ⟨fuel - 2, by omega⟩
      let afterRead := s.advance input { inode := some inode, position } data.length
      let afterWrite := afterRead.advance output { inode := none, position := n } 1
      have reads : s.Reads input bufferSize data afterRead := by
        refine ⟨_, reading, one ▸ by decide, ?_, rfl⟩
        rintro _ ⟨⟩
        exact ⟨ take_prefix _ _, fun nothing => (something nothing).elim⟩
      have writing' : afterRead.streams output = some { inode := none, position := n } :=
        (update_of_ne differ.symm _ _).trans writing
      have reading' : afterWrite.streams input = some { inode := some inode, position := position + data.length } :=
        (update_of_ne differ _ _).trans (update_self _ _ _)
      have next := all.1 data afterRead reads
      rw [if_neg something, leaves_bind] at next
      unfold writeBuffer at next
      rw [if_neg something, leaves_bind, leaves_forward] at next
      have next' := next.1 (1 : Nat) afterWrite ⟨_, writing', one.ge, rfl⟩
      rw [drop_eq_nil_of_le one.le] at next'
      unfold writeBuffer at next'
      have room' : (afterWrite.content inode).length - (position + data.length) + 3 ≤ fuel + 2 := by
        show (s.content inode).length - (position + data.length) + 3 ≤ fuel + 2
        omega
      exact @ih afterWrite (position + data.length) room' reading' (.inr ⟨n + 1, update_self _ _ _⟩) next'

theorem closeFile_done {file : FileHandle}
    (all : (closeFile mount file).Leaves (Answers layout) s post failed) : post () (s.setStream file none) := by
  unfold closeFile at all
  rw [leaves_bind, leaves_attempt, leaves_forward] at all
  exact all.1 () _ rfl

theorem keepPermissions_done {info : FileInfo}
    (all : (keepPermissions destination options destinationPath info).Leaves (Answers layout) s post failed) :
    post () s := by
  unfold keepPermissions at all
  rw [leaves_ite] at all
  by_cases preserve : options.preservePermissions = true
  · have permitted := all.1 preserve
    rw [leaves_forward] at permitted
    exact permitted.1 () s rfl
  · exact all.2 preserve

def Disk.Hits (s : Disk Name Inode) (y : Name) (inode : Inode) : Prop :=
  s.nodes y = some (.file inode) ∨ ∃ kind, s.nodes y = some (.special kind) ∧ kind ≠ .socket

theorem opens_hit (overwrite : options.overwriteExisting = true) (target : layout.target destinationPath = some y)
    (hits : s.Hits y inode) :
    ∃ s', (s.opened (some inode)).Opens layout destinationPath (destinationOpen options) s' ∧ s'.nodes = s.nodes ∧
      (s.nodes y = some (.file inode) → s'.content inode = []) ∧ (s'.content inode).length ≤ (s.content inode).length ∧
      s'.streams ⟨s.handles⟩ = some { inode := some inode } ∧
      ((s'.content inode).length ≤ 0 ∨ ∃ n, s'.streams ⟨s.handles + 1⟩ = some { inode := none, position := n }) := by
  unfold Opens destinationOpen
  simp only [overwrite]
  rcases hits with taken | ⟨kind, taken, other⟩
  · refine ⟨((s.opened (some inode)).setContent inode []).opened (some inode), ⟨y, target, .inr (.inl ⟨inode, taken, rfl⟩)⟩,
      rfl, ?_⟩
    have empty : (((s.opened (some inode)).setContent inode []).opened (some inode)).content inode = [] :=
      update_self _ _ _
    rw [empty]
    refine ⟨fun _ => rfl, Nat.zero_le _, ?_, .inl (Nat.le_refl _)⟩
    simp [opened, setStream, setContent]
  · refine ⟨(s.opened (some inode)).opened none, ⟨y, target, .inr (.inr ⟨kind, taken, other, rfl⟩)⟩, rfl, ?_⟩
    refine ⟨?_, Nat.le_refl _, ?_, .inr ⟨0, ?_⟩⟩
    · intro impossible
      cases taken.symm.trans impossible
    · simp [opened, setStream]
    · simp [opened, setStream]

theorem copyRegularFile_hits (node : s.nodes x = some (.file inode)) (target : layout.target sourcePath = some x)
    (overwrite : options.overwriteExisting = true) (target' : layout.target destinationPath = some y)
    (hits : s.Hits y inode) (fuel : Nat) (room : (s.content inode).length + 3 ≤ fuel) {sourceInfo destinationInfo : FileInfo}
    (all : (copyRegularFile source destination options fuel sourcePath destinationPath sourceInfo destinationInfo).Leaves
      (Answers layout) s post failed) :
    ∃ s', s'.nodes = s.nodes ∧ (s.nodes y = some (.file inode) → s'.content inode = []) ∧ post () s' := by
  unfold copyRegularFile at all
  rw [leaves_bind, leaves_forward] at all
  have opened := all.1 ⟨s.handles⟩ (s.opened (some inode)) ⟨rfl, x, target, .inl ⟨inode, node, rfl⟩⟩
  rw [leaves_bind, leaves_forward] at opened
  obtain ⟨s₂, opens, nodes, emptied, shorter, reading, sink⟩ := opens_hit overwrite target' hits
  have copying := opened.1 ⟨s.handles + 1⟩ s₂ ⟨rfl, opens⟩
  rw [leaves_bind, leaves_attempt] at copying
  have differ : (⟨s.handles⟩ : FileHandle) ≠ ⟨s.handles + 1⟩ := by simp
  obtain ⟨s₃, nodes', same, final⟩ := copyContent_drains differ fuel (by omega) reading sink copying
  rw [leaves_bind] at final
  have closed := closeFile_done final
  rw [leaves_bind] at closed
  have closed' := closeFile_done closed
  refine ⟨(s₃.setStream ⟨s.handles⟩ none).setStream ⟨s.handles + 1⟩ none, nodes'.trans nodes, fun itself => ?_,
    keepPermissions_done closed'⟩
  show s₃.content inode = []
  rw [same, emptied itself]

def Disk.info (layout : Layout Name) (s : Disk Name Inode) (path : Path) : FileInfo where
  exists_ := (s.entry layout path).isSome
  type := (s.entry layout path).getD .unknown

theorem getInfo_done {post : FileInfo → Disk Name Inode → Prop}
    (all : Leaves (α := no_index Kind.info.Carrier) (Answers layout)
      (forward mount (.getInfo path { symlinkMode := .doNotFollow })) s post failed) : post (s.info layout path) s := by
  rw [leaves_forward] at all
  apply all.1
  refine ⟨rfl, rfl, ?_⟩
  intro type is
  simp [info, is]

theorem copyAcrossFileSystems_hits (node : s.nodes x = some (.file inode)) (named : layout.name sourcePath = some x)
    (plain : layout.link x = none) (overwrite : options.overwriteExisting = true)
    (target : layout.target destinationPath = some y) (hits : s.Hits y inode) (fuel : Nat)
    (room : (s.content inode).length + 4 ≤ fuel) {activeDirectories : List FileIdentity}
    (all : (copyAcrossFileSystems source destination options fuel sourcePath destinationPath activeDirectories).Leaves
      (Answers layout) s post failed) :
    ∃ s', s'.nodes = s.nodes ∧ (s.nodes y = some (.file inode) → s'.content inode = []) ∧ post () s' := by
  obtain ⟨fuel, rfl⟩ : ∃ rest, fuel = rest + 1 := ⟨fuel - 1, by omega⟩
  unfold copyAcrossFileSystems at all
  rw [leaves_bind] at all
  have next := getInfo_done all
  have is : s.info layout sourcePath = { exists_ := true, type := .file } := by
    simp [info, entry_file named plain node]
  simp only [is, Bool.not_true, reduceCtorEq, false_and, if_false] at next
  rw [leaves_bind] at next
  have next' := getInfo_done next
  exact copyRegularFile_hits node (layout.target_plain named plain) overwrite target hits fuel (by omega) next'

end

section

variable [DecidableEq Name] [DecidableEq Inode] {mounts : MountId → LocalMount} {table : List MountId}
  {source destination sourcePath destinationPath : Path} {sourceMount destinationMount : MountId} {options : CopyOptions}

def NamesFile (layout : Layout Name) (mounts : MountId → LocalMount) (table : List MountId) (virtualPath : Path)
    (content : Bytes) (s : Disk Name Inode) : Prop :=
  ∃ mount path, resolvePath (fun id => (mounts id).mount) table virtualPath = .ok (mount, path) ∧ s.IsFile layout path content

/-- What a move of a file may leave: the file has moved, or it has not and is still somewhere. -/
def Kept (layout : Layout Name) (mounts : MountId → LocalMount) (table : List MountId) (source destination : Path)
    (content : Bytes) : Except Failure Unit → Disk Name Inode → Prop
  | .ok _, s => NamesFile layout mounts table destination content s
  | .error _, s => NamesFile layout mounts table source content s ∨ NamesFile layout mounts table destination content s

theorem leaves_rejectReadOnly {σ : Type} {answers : σ → (question : Question) → Answer question → σ → Prop} {s : σ}
    {mounts : MountId → Mount} {mount : MountId} {message : String} {path secondary : Path} {post : Unit → σ → Prop}
    {failed : Failure → σ → Prop} (next : readOnly mounts mount = false → post () s) (bad : ∀ e, failed e s) :
    (rejectReadOnly mounts mount message path secondary).Leaves answers s post failed := by
  unfold rejectReadOnly
  rw [leaves_ite]
  exact ⟨fun _ => bad _, fun writable => next (eq_false_of_ne_true writable)⟩

section

variable (resolves : resolvePath (fun id => (mounts id).mount) table source = .ok (sourceMount, sourcePath))
    (resolves' : resolvePath (fun id => (mounts id).mount) table destination = .ok (destinationMount, destinationPath))
    (apart : sourceMount ≠ destinationMount)

include resolves resolves' apart

theorem move_kept (holds : Holds s x inode content) (named : layout.name sourcePath = some x) (plain : layout.link x = none)
    (safe : options.overwriteExisting = true → s.OverwritesSafely layout x inode destinationPath) (fuel : Nat) :
    (move (fun id => (mounts id).mount) table fuel source destination options).Leaves
      (Answers layout) s (fun value => Kept layout mounts table source destination content (.ok value))
      fun e => Kept layout mounts table source destination content (.error e) := by
  have target := layout.target_plain named plain
  have still : ∀ s', Holds s' x inode content → ∀ e, Kept layout mounts table source destination content (.error e) s' :=
    fun s' holds _ => .inl ⟨sourceMount, sourcePath, resolves, holds.isFile target⟩
  unfold move copyFile resolve
  simp only [resolves, resolves', ofResult, leaves_bind, leaves_pure, apart, if_false]
  apply leaves_rejectReadOnly _ (still s holds)
  intro _
  apply leaves_rejectReadOnly _ (still s holds)
  intro _
  apply leaves_rejectReadOnly _ (still s holds)
  intro _
  apply (copyAcrossFileSystems_complete holds named plain safe fuel []).mono
  · rintro _ s' ⟨holds', y, copy, target', differ, copied⟩
    apply leaves_getInfo named plain holds'.node
    · intro info _ isFile
      simp only [isFile, reduceCtorEq, if_false]
      rw [leaves_forward]
      constructor
      · rintro _ s'' (⟨z, named', removed⟩ | ⟨impossible, -⟩)
        · rw [named] at named'
          cases named'
          obtain ⟨-, -, rfl⟩ := removed plain
          refine ⟨destinationMount, destinationPath, resolves', y, copy, target', ?_, copied.content⟩
          exact (update_of_ne differ _ _).trans copied.node
        · cases impossible
      · rintro _ _ rfl
        exact still _ holds' _
    · exact fun _ => still _ holds' _
  · exact fun _ s' holds' => still s' holds' _

theorem move_loses (writable : readOnly (fun id => (mounts id).mount) sourceMount = false)
    (writable' : readOnly (fun id => (mounts id).mount) destinationMount = false) (holds : Holds s x inode content)
    (named : layout.name sourcePath = some x) (plain : layout.link x = none)
    (overwrite : options.overwriteExisting = true) (target : layout.target destinationPath = some y)
    (hits : s.Hits y inode) (itself : s.nodes y = some (.file inode) → content = [] → y = x) :
    ¬(move (fun id => (mounts id).mount) table (content.length + 4) source destination options).Leaves
      (Answers layout) s (fun value => Kept layout mounts table source destination content (.ok value))
      fun e => Kept layout mounts table source destination content (.error e) := by
  intro all
  unfold move copyFile resolve at all
  simp only [resolves, resolves', ofResult, leaves_bind, leaves_pure, apart, if_false, rejectReadOnly, writable, writable',
    Bool.false_eq_true] at all
  have room : (s.content inode).length + 4 ≤ content.length + 4 := by rw [holds.content]
  obtain ⟨s', nodes, emptied, next⟩ := copyAcrossFileSystems_hits holds.node named plain overwrite target hits _ room all
  have next' := getInfo_done next
  have node' : s'.nodes x = some (.file inode) := by rw [nodes, holds.node]
  have is : s'.info layout sourcePath = { exists_ := true, type := .file } := by
    simp [info, entry_file named plain node']
  simp only [is, reduceCtorEq, if_false] at next'
  rw [leaves_forward] at next'
  have unlinks : s'.Unlinks layout sourcePath {} (s'.setNode x none) := by
    refine .inl ⟨x, named, fun _ => ⟨?_, ?_, rfl⟩⟩
    · rw [node']
      exact Option.some_ne_none _
    · rw [node']
      rintro ⟨⟩
  obtain ⟨mount, path, resolves'', z, copy, target', taken, copied⟩ := next'.1 () (s'.setNode x none) unlinks
  cases resolves'.symm.trans resolves''
  cases target.symm.trans target'
  have differ : y ≠ x := by
    rintro rfl
    cases (s'.setNode_self y none).symm.trans taken
  have taken' : s.nodes y = some (.file copy) := by
    rw [← nodes]
    exact (update_of_ne differ _ _).symm.trans taken
  rcases hits with same | ⟨kind, special, -⟩
  · cases same.symm.trans taken'
    have empty : content = [] := copied.symm.trans (emptied same)
    exact differ (itself same empty)
  · cases special.symm.trans taken'

end

/-- A move between mounts keeps the file in every run if and only if it does not overwrite, or what it overwrites is
    another regular file. -/
theorem move_kept_iff (resolves : resolvePath (fun id => (mounts id).mount) table source = .ok (sourceMount, sourcePath))
    (resolves' : resolvePath (fun id => (mounts id).mount) table destination = .ok (destinationMount, destinationPath))
    (apart : sourceMount ≠ destinationMount) (writable : readOnly (fun id => (mounts id).mount) sourceMount = false)
    (writable' : readOnly (fun id => (mounts id).mount) destinationMount = false)
    (named : layout.name sourcePath = some x) (plain : layout.link x = none) (node : s.nodes x = some (.file inode))
    (is : s.content inode = content) : (∀ fuel result s', Reaches (Answers layout)
        (move (fun id => (mounts id).mount) table fuel source destination options, s) (done result, s') →
        Kept layout mounts table source destination content result s') ↔
      (options.overwriteExisting = true → s.OverwritesSafely layout x inode destinationPath) := by
  have holds : Holds s x inode content := ⟨node, is⟩
  constructor
  · intro all overwrite y target
    have lost : ∀ hits : s.Hits y inode, ¬(s.nodes y = some (.file inode) → content = [] → y = x) := by
      intro hits itself
      apply move_loses resolves resolves' apart writable writable' holds named plain overwrite target hits itself
      rw [leaves_iff]
      exact ⟨fun _ s' => all _ _ s', fun _ s' => all _ _ s'⟩
    constructor
    · intro copy taken
      by_cases other : copy ≠ inode
      · exact .inl other
      obtain rfl : copy = inode := not_not.mp other
      right
      by_contra unsafe_
      apply lost (.inl taken)
      intro _ empty
      by_contra differ
      exact unsafe_ ⟨is.trans empty, differ⟩
    · intro kind taken
      by_contra other
      apply lost (.inr ⟨kind, taken, other⟩)
      intro impossible
      cases taken.symm.trans impossible
  · intro safe fuel result s' run
    have kept := (move_kept resolves resolves' apart holds named plain safe fuel).reached run
    cases result with
    | ok value => exact kept
    | error e => exact kept

def overlapping (id : MountId) : LocalMount :=
  .make ⟨[0x2F, 0x64]⟩ { virtualPrefix := if id = 0 then ⟨[0x2F, 0x61]⟩ else ⟨[0x2F, 0x62]⟩ }

def noLinks : Layout Path where
  name := some
  link := fun _ => none
  resolved := fun _ _ impossible => nomatch impossible

def oneFile : Disk Path Nat where
  nodes := update (fun _ => none) ⟨[0x2F, 0x64, 0x2F, 0x78]⟩ (some (.file 0))
  content := fun _ => [1]

theorem oneFile_node : oneFile.nodes ⟨[0x2F, 0x64, 0x2F, 0x78]⟩ = some (.file 0) := by decide

theorem overlapping_source : resolvePath (fun id => (overlapping id).mount) [0, 1] ⟨[0x2F, 0x61, 0x2F, 0x78]⟩ =
    .ok (0, ⟨[0x2F, 0x64, 0x2F, 0x78]⟩) := by decide

theorem move_kept_iff_fresh : oneFile.nodes ⟨[0x2F, 0x64, 0x2F, 0x79]⟩ = none ∧
    ∀ fuel result s', Reaches (Answers noLinks) (move (fun id => (overlapping id).mount) [0, 1] fuel
        ⟨[0x2F, 0x61, 0x2F, 0x78]⟩ ⟨[0x2F, 0x62, 0x2F, 0x79]⟩ { overwriteExisting := true }, oneFile) (done result, s') →
      Kept noLinks overlapping [0, 1] ⟨[0x2F, 0x61, 0x2F, 0x78]⟩ ⟨[0x2F, 0x62, 0x2F, 0x79]⟩ [1] result s' := by
  have free : oneFile.nodes ⟨[0x2F, 0x64, 0x2F, 0x79]⟩ = none := by decide
  have resolves : resolvePath (fun id => (overlapping id).mount) [0, 1] ⟨[0x2F, 0x62, 0x2F, 0x79]⟩ =
      .ok (1, ⟨[0x2F, 0x64, 0x2F, 0x79]⟩) := by decide
  refine ⟨free, (move_kept_iff overlapping_source resolves (by decide) rfl rfl rfl rfl oneFile_node rfl).mpr ?_⟩
  intro _ y target
  cases target
  constructor
  · intro _ taken
    cases free.symm.trans taken
  · intro _ taken
    cases free.symm.trans taken

theorem move_loses_itself :
    ¬∀ fuel result s', Reaches (Answers noLinks) (move (fun id => (overlapping id).mount) [0, 1] fuel
        ⟨[0x2F, 0x61, 0x2F, 0x78]⟩ ⟨[0x2F, 0x62, 0x2F, 0x78]⟩ { overwriteExisting := true }, oneFile) (done result, s') →
      Kept noLinks overlapping [0, 1] ⟨[0x2F, 0x61, 0x2F, 0x78]⟩ ⟨[0x2F, 0x62, 0x2F, 0x78]⟩ [1] result s' := by
  intro all
  have resolves : resolvePath (fun id => (overlapping id).mount) [0, 1] ⟨[0x2F, 0x62, 0x2F, 0x78]⟩ =
      .ok (1, ⟨[0x2F, 0x64, 0x2F, 0x78]⟩) := by decide
  have holds : Holds oneFile ⟨[0x2F, 0x64, 0x2F, 0x78]⟩ 0 [1] := ⟨oneFile_node, rfl⟩
  have overwrite : ({ overwriteExisting := true } : CopyOptions).overwriteExisting = true := rfl
  have target : noLinks.target ⟨[0x2F, 0x64, 0x2F, 0x78]⟩ = some ⟨[0x2F, 0x64, 0x2F, 0x78]⟩ := rfl
  apply move_loses overlapping_source resolves (by decide) rfl rfl holds rfl rfl overwrite target (.inl oneFile_node)
    (fun _ _ => rfl)
  rw [leaves_iff]
  exact ⟨fun _ s' => all _ _ s', fun _ s' => all _ _ s'⟩

end

end NginBase.IO
