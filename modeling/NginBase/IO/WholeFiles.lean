import NginBase.IO.FileUtilities

namespace NginBase.IO

open Library Library.Dialogue Function List Files Nat

variable {schedule : Schedule} {s : Files} {handle : FileHandle} {path : Path} {base : Path → Option Bytes}
  {content : Bytes} {keeps : Files → Prop}

variable {answers : Files → (question : FileQuestion) → FileAnswer question → Files → Prop}

theorem guarantees_perform {kind : Kind} {call : FileCall kind} {post : kind.Carrier → Files → Prop}
    {failed : IOError → Files → Prop} (start : keeps s)
    (good : ∀ a s', answers s ⟨kind, call⟩ (.ok a) s' → keeps s' ∧ post a s')
    (bad : ∀ e s', answers s ⟨kind, call⟩ (.error e) s' → keeps s' ∧ failed e s') :
    (perform call).Guarantees answers keeps s post failed := by
  refine ⟨start, ?_⟩
  intro answer s' answered
  cases answer with
  | ok a => exact good a s' answered
  | error e => exact bad e s' answered

theorem step_perform {kind : Kind} {call : FileCall kind} {α : Type} (f : kind.Carrier → FileTask α)
    {a : kind.Carrier} {s' : Files} (answered : answers s ⟨kind, call⟩ (.ok a) s') :
    Step answers (perform call >>= f, s) (f a, s') := by
  show Step answers (ask ⟨kind, call⟩ fun answer => andThen (ofAnswer answer) f, s) (andThen (ofAnswer (.ok a)) f, s')
  exact .answer answered

/-- One file is open for writing at its end, and consists of `content`. -/
def Writing (base : Path → Option Bytes) (handle : FileHandle) (path : Path) (content : Bytes) (s : Files) : Prop :=
  s.contents = update base path (some content) ∧
    ∃ file, s.opened handle = some file ∧ file.path = path ∧ (file.access = .append ∨ file.position = content.length)

def Touched (base : Path → Option Bytes) (path : Path) (s : Files) : Prop :=
  ∃ content, s.contents = update base path (some content)

theorem overwrite_end {file : OpenFile} (data : Bytes) (atEnd : file.access = .append ∨ file.position = content.length) :
    Files.overwrite file content data = content ++ data := by
  unfold Files.overwrite
  split
  · rfl
  · rename_i access
    rw [atEnd.resolve_left access, take_length, drop_eq_nil_of_le (le_add_right _ _), append_nil]

theorem Writing.written (writing : Writing base handle path content s) {data : Bytes} {n : Nat} {s' : Files}
    (answered : s.Answers schedule ⟨.number, .write handle data⟩ (.ok n) s') :
    n = schedule.amount s.turns data.length ∧ Writing base handle path (content ++ data.take n) s' := by
  obtain ⟨same, file, isOpen, rfl, atEnd⟩ := writing
  obtain ⟨file', content', isOpen', contents, count, rfl⟩ := answered
  rw [isOpen] at isOpen'
  cases isOpen'
  rw [same, update_self] at contents
  cases contents
  have length : (data.take n).length = n := by
    rw [length_take, min_eq_left]
    rw [count]
    exact schedule.bounded _ _
  refine ⟨count, ?_, { file with position := file.position + n }, update_self _ _ _, rfl, ?_⟩
  · simp only [advance, put, same, update_idem]
    rw [overwrite_end _ atEnd]
  · rcases atEnd with access | position
    · exact .inl access
    · right
      rw [length_append, length, ← position]

theorem Writing.failed (writing : Writing base handle path content s) {data : Bytes} {e : IOError} {s' : Files}
    (answered : s.Answers schedule ⟨.number, .write handle data⟩ (.error e) s') : Touched base path s' := by
  obtain ⟨same, file, isOpen, rfl, -⟩ := writing
  rcases answered with rfl | ⟨file', content', isOpen', rfl⟩
  · exact ⟨content, same⟩
  · rw [isOpen] at isOpen'
    cases isOpen'
    exact ⟨content', by simp [put, same]⟩

theorem writeAllBytesToOpenFile_spec (moves : ∀ s data n s', answers s ⟨.number, .write handle data⟩ (.ok n) s' →
      n = (0 : Nat) ∧ s' = s ∨ s.Answers schedule ⟨.number, .write handle data⟩ (.ok n) s')
    (breaks : ∀ s data e s', answers s ⟨.number, .write handle data⟩ (.error e) s' →
      s.Answers schedule ⟨.number, .write handle data⟩ (.error e) s') (fuel : Nat) (bytes : Bytes)
    (enough : bytes.length ≤ fuel) (writing : Writing base handle path content s) (message : Path) :
    (writeAllBytesToOpenFile handle message fuel bytes).Guarantees answers (Touched base path) s
      (fun _ s' => Writing base handle path (content ++ bytes) s') (fun _ s' => Touched base path s') := by
  induction fuel generalizing bytes content s with
  | zero =>
    obtain rfl : bytes = [] := length_eq_zero_iff.mp (le_zero.mp enough)
    simp only [append_nil]
    exact ⟨⟨content, writing.1⟩, writing⟩
  | succ fuel ih =>
    cases bytes with
    | nil =>
      simp only [append_nil]
      exact ⟨⟨content, writing.1⟩, writing⟩
    | cons first rest =>
      apply guarantees_bind
      apply guarantees_perform ⟨content, writing.1⟩
      · intro (n : Nat) s' answered
        by_cases nothing : n = 0
        · have touched : Touched base path s' := by
            rcases moves _ _ _ _ answered with ⟨-, rfl⟩ | answered
            · exact ⟨content, writing.1⟩
            · exact ⟨_, (writing.written answered).2.1⟩
          rw [if_pos nothing]
          exact ⟨touched, touched, touched⟩
        obtain ⟨-, writing'⟩ := writing.written ((moves _ _ _ _ answered).resolve_left fun moved => nothing moved.1)
        refine ⟨⟨_, writing'.1⟩, ?_⟩
        rw [if_neg nothing]
        have shorter : ((first :: rest).drop n).length ≤ fuel := by
          rw [length_drop]
          omega
        have spec := ih ((first :: rest).drop n) shorter writing'
        rwa [append_assoc, take_append_drop] at spec
      · intro e s' answered
        have touched := writing.failed (breaks _ _ _ _ answered)
        exact ⟨touched, touched⟩

section

variable {options : FileOpenOptions}

theorem opened_writing {file : FileHandle} {s' : Files}
    (answered : s.Answers schedule ⟨.file, .openFile path options⟩ (.ok file) s') (fresh : Bytes)
    (is : ∀ content, openContent options.disposition (s.contents path) = some content → content = fresh)
    (atEnd : options.access = .append ∨ fresh = []) : Writing s.contents file path fresh s' := by
  obtain ⟨rfl, content, opens, rfl⟩ := answered
  obtain rfl := is content opens
  refine ⟨rfl, { path, access := options.access }, update_self _ _ _, rfl, ?_⟩
  rcases atEnd with append | empty
  · exact .inl append
  · right
    rw [empty]
    rfl

theorem writeAllBytes_spec (path : Path) (bytes : Bytes) (s : Files) :
    (writeAllBytes path bytes).Guarantees (Answers schedule) (fun _ => True) s
      (fun _ s' => s'.contents path = some bytes) (fun _ _ => True) := by
  apply guarantees_bind
  apply guarantees_perform True.intro
  · intro file s₁ answered
    refine ⟨True.intro, ?_⟩
    have writing : Writing s.contents file path [] s₁ :=
      opened_writing answered [] (fun content opens => (Option.some.inj opens).symm) (.inr rfl)
    have written : (writeAllBytesToOpenFile file path bytes.length bytes).Guarantees (Answers schedule)
        (Touched s.contents path) s₁ _ _ :=
      writeAllBytesToOpenFile_spec (fun _ _ _ _ => .inr) (fun _ _ _ _ bad => bad) _ bytes (le_refl _) writing path
    apply guarantees_bind
    apply (written.keeping fun _ _ => True.intro).mono
    · intro _ s₂ ⟨contents, _⟩
      apply guarantees_perform True.intro
      · intro _ s' answered
        obtain rfl : s' = s₂ := answered
        exact ⟨True.intro, by rw [contents, update_self]; rfl⟩
      · intro e s' _
        exact ⟨True.intro, True.intro⟩
    · intro e s₂ _
      exact True.intro
  · intro e s₁ _
    exact ⟨True.intro, True.intro⟩

end

def Reading (base : Path → Option Bytes) (handle : FileHandle) (content : Bytes) (position : Nat) (s : Files) : Prop :=
  s.contents = base ∧ position ≤ content.length ∧
    ∃ file, s.opened handle = some file ∧ base file.path = some content ∧ file.position = position

theorem Reading.read {position size : Nat} (reading : Reading base handle content position s) (some_ : 0 < size)
    {data : Bytes} {s' : Files} (answered : s.Answers schedule ⟨.bytes, .read handle size⟩ (.ok data) s') :
    Reading base handle content (position + data.length) s' ∧
      content.take position ++ data = content.take (position + data.length) ∧
      (data = [] → position = content.length) := by
  obtain ⟨same, inside, file, isOpen, holds, rfl⟩ := reading
  obtain ⟨file', content', isOpen', contents, is, rfl⟩ := answered
  rw [isOpen] at isOpen'
  cases isOpen'
  rw [same, holds] at contents
  cases contents
  have bounded := schedule.bounded s.turns (min size (content.length - file.position))
  have length : data.length = schedule.amount s.turns (min size (content.length - file.position)) := by
    rw [is, length_take, length_drop]
    omega
  refine ⟨⟨same, by omega, _, update_self _ _ _, holds, rfl⟩, ?_, ?_⟩
  · rw [take_add, length, ← is]
  · intro empty
    rw [empty, length_nil] at length
    by_contra more
    have := schedule.positive s.turns (min size (content.length - file.position)) (by omega)
    omega

theorem readLoop_spec {position : Nat} (fuel : Nat) (enough : content.length - position < fuel)
    (reading : Reading base handle content position s) :
    (readLoop handle fuel (content.take position)).Guarantees (Answers schedule) (fun _ => True) s
      (fun bytes s' => bytes = content ∧ s'.contents = base) (fun _ _ => True) := by
  induction fuel generalizing position s with
  | zero => exact absurd enough (not_lt_zero _)
  | succ fuel ih =>
    apply guarantees_bind
    apply guarantees_perform True.intro
    · intro data s' answered
      refine ⟨True.intro, ?_⟩
      obtain ⟨reading', extended, atEnd⟩ := reading.read (by decide) answered
      split
      · rename_i empty
        rw [atEnd empty, take_length]
        exact ⟨True.intro, rfl, reading'.1⟩
      · rename_i some_
        have moved : 0 < data.length := length_pos_iff.mpr some_
        have := reading'.2.1
        rw [extended]
        exact ih (by omega) reading'
    · intro e s' _
      exact ⟨True.intro, True.intro⟩

theorem readAllBytes_spec (fuel : Nat) (path : Path) (s : Files)
    (enough : ∀ content, s.contents path = some content → content.length < fuel) :
    (readAllBytes fuel path).Guarantees (Answers schedule) (fun _ => True) s
      (fun bytes s' => s.contents path = some bytes ∧ s'.contents = s.contents) (fun _ _ => True) := by
  apply guarantees_bind
  apply guarantees_perform True.intro
  · intro file s₁ answered
    obtain ⟨rfl, content, holds, opened⟩ := answered
    have holds : s.contents path = some content := holds
    have unchanged : update s.contents path (some content) = s.contents := by
      rw [← holds, update_eq_self]
    have reading : Reading s.contents ⟨s.handles⟩ content 0 s₁ := by
      rw [opened]
      exact ⟨unchanged, zero_le _, { path, access := .read }, update_self _ _ _, holds, rfl⟩
    refine ⟨True.intro, ?_⟩
    apply guarantees_bind
    apply guarantees_perform True.intro
    · intro _ s₂ answered
      obtain ⟨rfl, -⟩ := answered
      refine ⟨True.intro, ?_⟩
      apply (readLoop_spec fuel (enough content holds) reading).mono
      · intro bytes s' ⟨is, same⟩
        exact ⟨by rw [is]; exact holds, same⟩
      · intro e s' _
        exact True.intro
    · intro e s₂ _
      exact ⟨True.intro, True.intro⟩
  · intro e s₁ _
    exact ⟨True.intro, True.intro⟩

theorem appendAllText_spec (path : Path) (text : Bytes) (s : Files) :
    (appendAllText path text).Guarantees (Answers schedule) (fun _ => True) s
      (fun _ s' => s'.contents path =
        some ((s.contents path).getD [] ++ text.take (schedule.amount s.turns text.length))) (fun _ _ => True) := by
  apply guarantees_bind
  apply guarantees_perform True.intro
  · intro file s₁ answered
    have writing : Writing s.contents file path ((s.contents path).getD []) s₁ :=
      opened_writing answered _ (fun content opens => (Option.some.inj opens).symm) (.inl rfl)
    have turns : s₁.turns = s.turns := by
      obtain ⟨-, _, -, rfl⟩ := answered
      rfl
    refine ⟨True.intro, ?_⟩
    apply guarantees_bind
    apply guarantees_perform True.intro
    · intro n s₂ written
      obtain ⟨count, writing'⟩ := writing.written written
      rw [turns] at count
      refine ⟨True.intro, ?_⟩
      apply guarantees_perform True.intro
      · intro _ s' flushed
        obtain rfl : s' = s₂ := flushed
        exact ⟨True.intro, by rw [writing'.1, update_self, count]⟩
      · intro e s' _
        exact ⟨True.intro, True.intro⟩
    · intro e s₂ _
      exact ⟨True.intro, True.intro⟩
  · intro e s₁ _
    exact ⟨True.intro, True.intro⟩

theorem appendAllText_succeeds (schedule : Schedule) (path : Path) (text : Bytes) (s : Files) :
    ∃ s', Reaches (Answers schedule) (appendAllText path text, s) (done (.ok ()), s') := by
  let content := (s.contents path).getD []
  let file : OpenFile := { path, access := .append }
  let n := schedule.amount s.turns text.length
  let s₁ : Files := { s.put path (some content) with
    opened := update s.opened ⟨s.handles⟩ (some file)
    handles := s.handles + 1 }
  let s₂ := (s₁.put path (some (overwrite file content (text.take n)))).advance ⟨s.handles⟩ file n
  have opens : s.Answers schedule ⟨.file, .openFile path { access := .append, disposition := .openAlways }⟩
      (.ok ⟨s.handles⟩) s₁ := ⟨rfl, content, rfl, rfl⟩
  have writes : s₁.Answers schedule ⟨.number, .write ⟨s.handles⟩ text⟩ (.ok n) s₂ :=
    ⟨file, content, update_self _ _ _, update_self _ _ _, rfl, rfl⟩
  have flushes : s₂.Answers schedule ⟨.nothing, .flush ⟨s.handles⟩⟩ (.ok ()) s₂ := rfl
  have flushed : Step (Answers schedule) ((perform (.flush ⟨s.handles⟩) : FileTask Unit), s₂) (done (.ok ()), s₂) := by
    show Step _ (ask ⟨.nothing, .flush ⟨s.handles⟩⟩ ofAnswer, s₂) (ofAnswer (.ok ()), s₂)
    exact .answer flushes
  exact ⟨s₂, ((Relation.ReflTransGen.single (step_perform _ opens)).tail (step_perform _ writes)).tail flushed⟩

/-- When the utilities succeed, files are written, read and extended as a whole. -/
structure WholeFiles (schedule : Schedule) (s : Files) (path : Path) (bytes text : Bytes) : Prop where
  writes : ∀ s', Reaches (Answers schedule) (writeAllBytes path bytes, s) (done (.ok ()), s') →
    s'.contents path = some bytes
  writesText : ∀ s', Reaches (Answers schedule) (writeAllText path text, s) (done (.ok ()), s') →
    s'.contents path = some text
  reads : ∀ fuel, (∀ content, s.contents path = some content → content.length < fuel) → ∀ result s',
    Reaches (Answers schedule) (readAllBytes fuel path, s) (done (.ok result), s') → s.contents path = some result
  appends : ∀ s', Reaches (Answers schedule) (appendAllText path text, s) (done (.ok ()), s') →
    s'.contents path = some ((s.contents path).getD [] ++ text)

/-- `AppendAllText` calls `Write` once: it is exact if that call moves the whole text. The others are exact however
    the transfers are cut. -/
theorem wholeFiles_iff (schedule : Schedule) (s : Files) (path : Path) (bytes text : Bytes) :
    WholeFiles schedule s path bytes text ↔ schedule.amount s.turns text.length = text.length := by
  constructor
  · intro whole
    obtain ⟨s', run⟩ := appendAllText_succeeds schedule path text s
    have wanted := whole.appends s' run
    rw [(appendAllText_spec path text s).returned run] at wanted
    have length := congrArg length (append_cancel_left (Option.some.inj wanted))
    rw [length_take] at length
    have := schedule.bounded s.turns text.length
    omega
  · intro whole
    refine ⟨?_, ?_, ?_, ?_⟩
    · intro s' run
      exact (writeAllBytes_spec path bytes s).returned run
    · intro s' run
      exact (writeAllBytes_spec path text s).returned run
    · intro fuel enough result s' run
      exact ((readAllBytes_spec fuel path s enough).returned run).1
    · intro s' run
      rw [(appendAllText_spec path text s).returned run, whole, take_length]

def single : Schedule where
  amount _ size := min 1 size
  positive := by intro _ size; omega
  bounded := by intro _ size; omega

theorem appendAllText_truncates : ¬∀ (schedule : Schedule) (s : Files) (path : Path) (bytes text : Bytes),
    WholeFiles schedule s path bytes text := by
  intro all
  have whole := all single { contents := fun _ => none } ⟨[0x66]⟩ [] [0x61, 0x62]
  obtain ⟨s', run⟩ := appendAllText_succeeds single ⟨[0x66]⟩ [0x61, 0x62] { contents := fun _ => none }
  have wanted := whole.appends s' run
  rw [(appendAllText_spec _ _ _).returned run] at wanted
  revert wanted
  decide

end NginBase.IO

namespace NginBase.IO

open Library Library.Dialogue

theorem filename_suffix {before text : Bytes} (nonempty : text ≠ []) (plain : ∀ c ∈ text, Path.isSeparator c = false) :
    text.length ≤ (Path.mk (before ++ text)).filename.length := by
  have kept : (before ++ text).rdropWhile Path.isSeparator = before ++ text := by
    rw [List.rdropWhile_eq_self_iff]
    intro some_
    rw [List.getLast_append_of_ne_nil _ nonempty, plain _ (List.getLast_mem nonempty)]
    decide
  have long : text <:+ (before ++ text).rtakeWhile (!Path.isSeparator ·) := by
    have inside : ∀ c ∈ text.reverse, (!Path.isSeparator c) = true := by
      intro c mem
      rw [plain c (List.mem_reverse.mp mem)]
      rfl
    unfold List.rtakeWhile
    rw [List.reverse_append, List.takeWhile_append_of_pos inside, List.reverse_append, List.reverse_reverse]
    exact List.suffix_append _ _
  unfold Path.filename
  rw [kept]
  exact long.length_le

theorem toDecimal_plain (n : Nat) : ∀ c ∈ toDecimal n, Path.isSeparator c = false := by
  intro c mem
  obtain ⟨digit, isDigit, rfl⟩ := List.mem_map.mp mem
  have range := Nat.isDigit_of_mem_toDigits (by decide) (by decide) isDigit
  simp only [Char.isDigit, Bool.and_eq_true, decide_eq_true_eq] at range
  have low : 48 ≤ digit.toNat := range.1
  have high : digit.toNat ≤ 57 := range.2
  interval_cases digit.toNat
  all_goals decide

theorem filename_plain (path : Path) : ∀ c ∈ path.filename, Path.isSeparator c = false := by
  intro c mem
  simpa using List.mem_rtakeWhile_imp mem

theorem makeAtomicTempPath_ne (path : Path) (options : AtomicWriteOptions) (uniqueValue attempt : Nat) :
    makeAtomicTempPath path options uniqueValue attempt ≠ path := by
  intro same
  let start : Bytes := if path.filename = [] then [0x66, 0x69, 0x6C, 0x65] else path.filename
  let text := start ++ [0x2E] ++ toDecimal uniqueValue ++ [0x2E] ++ toDecimal attempt
  have name : atomicTempName path options uniqueValue attempt = options.tempPrefix ++ text := by
    simp [atomicTempName, text, start]
  obtain ⟨before, ends⟩ : ∃ before, path.view = before ++ text := by
    rw [← same]
    unfold makeAtomicTempPath
    dsimp only
    rw [name]
    split
    · exact ⟨_, rfl⟩
    unfold Path.join
    split
    · rename_i empty
      simp [text] at empty
    split
    · exact ⟨path.parent.view ++ [0x2F] ++ options.tempPrefix, by simp⟩
    · exact ⟨path.parent.view ++ options.tempPrefix, by simp⟩
  have startPlain : ∀ c ∈ start, Path.isSeparator c = false := by
    unfold start
    split
    · simp [Path.isSeparator]
    · exact filename_plain path
  have plain : ∀ c ∈ text, Path.isSeparator c = false := by
    intro c mem
    simp only [text, List.mem_append, List.mem_singleton] at mem
    rcases mem with (((mem | rfl) | mem) | rfl) | mem
    · exact startPlain c mem
    · decide
    · exact toDecimal_plain _ c mem
    · decide
    · exact toDecimal_plain _ c mem
  have long : text.length ≤ path.filename.length := by
    have suffix : text.length ≤ (Path.mk (before ++ text)).filename.length :=
      filename_suffix (by simp [text]) plain
    rwa [← ends] at suffix
  have longer : path.filename.length < text.length := by
    have least : path.filename.length ≤ start.length := by
      unfold start
      split
      · rename_i empty
        simp [empty]
      · exact le_refl _
    simp only [text, List.length_append, List.length_singleton]
    omega
  omega

section

variable {schedule : Schedule} {s : Files} {path tempPath : Path} {bytes : Bytes} {handle : FileHandle}
  {before : Path → Option Bytes}

/-- A file system that can always remove a file. A write may also end with nothing written. -/
def Files.AnswersReliably (schedule : Schedule) (s : Files) (question : FileQuestion) (answer : FileAnswer question)
    (s' : Files) : Prop :=
  match question, answer with
  | ⟨_, .removeFile _ _⟩, .error _ => False
  | ⟨_, .write handle data⟩, .ok n =>
    n = (0 : Nat) ∧ s' = s ∨ s.Answers schedule ⟨.number, .write handle data⟩ (.ok n) s'
  | question, answer => s.Answers schedule question answer s'

def AllOrNothing (before : Path → Option Bytes) (path : Path) (bytes : Bytes) (s : Files) : Prop :=
  s.contents path = before path ∨ s.contents path = some bytes

theorem AllOrNothing.untouched (same : s.contents = before) : AllOrNothing before path bytes s := .inl (by rw [same])

theorem Touched.allOrNothing (apart : tempPath ≠ path) (touched : Touched before tempPath s) :
    AllOrNothing before path bytes s := by
  obtain ⟨content, same⟩ := touched
  left
  rw [same, Function.update_of_ne apart.symm]

theorem guarantees_ignore {kind : Kind} {call : FileCall kind} {keeps : Files → Prop} {post : Files → Prop}
    {failed : IOError → Files → Prop} {answers : Files → (question : FileQuestion) → FileAnswer question → Files → Prop}
    (start : keeps s) (after : ∀ answer s', answers s ⟨kind, call⟩ answer s' → keeps s' ∧ post s') :
    (ignore call).Guarantees answers keeps s (fun _ => post) failed := by
  apply guarantees_bind
  apply guarantees_attempt
  apply guarantees_perform start
  · intro a s' answered
    obtain ⟨kept, holds⟩ := after (.ok a) s' answered
    exact ⟨kept, kept, holds⟩
  · intro e s' answered
    obtain ⟨kept, holds⟩ := after (.error e) s' answered
    exact ⟨kept, kept, holds⟩

theorem guarantees_close {keeps : Files → Prop} {failed : IOError → Files → Prop}
    (start : keeps s) (stable : ∀ s', s'.contents = s.contents → keeps s') :
    (ignore (.close handle)).Guarantees (Files.AnswersReliably schedule) keeps s
      (fun _ s' => s'.contents = s.contents) failed := by
  apply guarantees_ignore start
  intro answer s' answered
  cases answer with
  | ok a =>
    obtain rfl : s' = _ := answered
    exact ⟨stable _ rfl, rfl⟩
  | error e => exact False.elim answered

theorem discard_spec (apart : tempPath ≠ path) (absent : before tempPath = none) (touched : Touched before tempPath s)
    (file : Option FileHandle) (e : IOError) :
    (discard file tempPath e).Guarantees (Files.AnswersReliably schedule) (AllOrNothing before path bytes) s
      (fun _ _ => False) (fun _ s' => s'.contents = before) := by
  have closed : (closeOpen file).Guarantees (Files.AnswersReliably schedule) (AllOrNothing before path bytes) s
      (fun _ s' => s'.contents = s.contents) (fun _ s' => s'.contents = before) := by
    cases file with
    | none => exact ⟨touched.allOrNothing apart, rfl⟩
    | some file =>
      apply guarantees_close (touched.allOrNothing apart)
      intro s' same
      obtain ⟨content, is⟩ := touched
      exact Touched.allOrNothing apart ⟨content, same.trans is⟩
  apply guarantees_bind
  apply closed.mono
  · intro _ s₁ same
    obtain ⟨content, is⟩ := touched
    have touched₁ : Touched before tempPath s₁ := ⟨content, same.trans is⟩
    apply guarantees_bind
    have removed : (ignore (.removeFile tempPath { ignoreMissing := true })).Guarantees (Files.AnswersReliably schedule)
        (AllOrNothing before path bytes) s₁ (fun _ s' => s'.contents = before) (fun _ s' => s'.contents = before) := by
      apply guarantees_ignore (touched₁.allOrNothing apart)
      intro answer s' answered
      cases answer with
      | ok a =>
        obtain rfl : s' = s₁.put tempPath none := answered
        have restored : (s₁.put tempPath none).contents = before := by
          unfold Files.put
          rw [same, is, Function.update_idem, ← absent, Function.update_eq_self]
        exact ⟨.untouched restored, restored⟩
      | error e => exact False.elim answered
    apply removed.mono
    · intro _ s₂ restored
      exact ⟨.untouched restored, restored⟩
    · intro e s₂ restored
      exact restored
  · intro e s' restored
    exact restored

theorem flushDurably_spec {keeps : Files → Prop} (start : keeps s) (options : AtomicWriteOptions) :
    (flushDurably options handle).Guarantees (Files.AnswersReliably schedule) keeps s (fun _ s' => s' = s)
      (fun _ s' => s' = s) := by
  unfold flushDurably
  split
  · apply guarantees_perform start
    · intro a s' answered
      obtain rfl : s' = s := answered
      exact ⟨start, rfl⟩
    · intro e s' answered
      obtain rfl : s' = s := answered
      exact ⟨start, rfl⟩
  · exact ⟨start, rfl⟩

theorem replaced_spec (apart : tempPath ≠ path) (absent : before tempPath = none)
    (contents : s.contents = Function.update before tempPath (some bytes)) :
    (do
      ignore (.close handle)
      match ← (perform (.replaceFile tempPath path)).attempt with
      | .error e => discard none tempPath e
      | .ok _ => pure () : FileTask Unit).Guarantees (Files.AnswersReliably schedule) (AllOrNothing before path bytes) s
      (fun _ s' => s'.contents = Function.update before path (some bytes)) (fun _ s' => s'.contents = before) := by
  have stable : ∀ s', s'.contents = s.contents → AllOrNothing before path bytes s' := by
    intro s' same
    exact Touched.allOrNothing apart ⟨bytes, same.trans contents⟩
  have closed : (ignore (.close handle)).Guarantees (Files.AnswersReliably schedule) (AllOrNothing before path bytes) s
      (fun _ s' => s'.contents = s.contents) (fun _ s' => s'.contents = before) :=
    guarantees_close (stable s rfl) stable
  apply guarantees_bind
  apply closed.mono
  · intro _ s₁ same
    apply guarantees_bind
    apply guarantees_attempt
    apply guarantees_perform (stable s₁ same)
    · intro _ s₂ answered
      obtain ⟨content, holds, rfl⟩ := answered
      rw [same, contents, Function.update_self] at holds
      cases holds
      have moved : ((s₁.put tempPath none).put path (some bytes)).contents = Function.update before path (some bytes) := by
        unfold Files.put
        rw [same, contents, Function.update_idem, ← absent, Function.update_eq_self]
      have complete : AllOrNothing before path bytes ((s₁.put tempPath none).put path (some bytes)) := by
        right
        rw [moved, Function.update_self]
      exact ⟨complete, complete, moved⟩
    · intro e s₂ answered
      obtain rfl : s₂ = s₁ := answered
      exact ⟨stable s₂ same, (discard_spec apart absent ⟨bytes, same.trans contents⟩ none e).weaken⟩
  · intro e s' restored
    exact restored

theorem publish_spec (apart : tempPath ≠ path) (absent : before tempPath = none)
    (writing : Writing before handle tempPath [] s) (options : AtomicWriteOptions) :
    (publish path bytes options handle tempPath).Guarantees (Files.AnswersReliably schedule)
      (AllOrNothing before path bytes) s (fun _ s' => s'.contents = Function.update before path (some bytes))
      (fun _ s' => s'.contents = before) := by
  have written : (writeAllBytesToOpenFile handle tempPath bytes.length bytes).Guarantees (Files.AnswersReliably schedule)
      (Touched before tempPath) s (fun _ s' => Writing before handle tempPath ([] ++ bytes) s')
      (fun _ s' => Touched before tempPath s') := by
    apply writeAllBytesToOpenFile_spec _ _ _ bytes (le_refl _) writing tempPath
    · exact schedule
    · intro s data n s' answered
      exact answered
    · intro s data e s' answered
      exact answered
  apply guarantees_bind
  apply guarantees_attempt
  apply (written.keeping fun _ touched => touched.allOrNothing apart).mono
  · intro _ s₁ ⟨contents, _⟩
    have touched : Touched before tempPath s₁ := ⟨_, contents⟩
    apply guarantees_bind
    apply guarantees_attempt
    apply (flushDurably_spec (touched.allOrNothing apart) options).mono
    · intro _ s₂ same
      rw [← same] at contents touched
      exact replaced_spec apart absent contents
    · intro e s₂ same
      rw [← same] at touched
      exact (discard_spec apart absent touched (some handle) e).weaken
  · intro e s₁ touched
    exact (discard_spec apart absent touched (some handle) e).weaken

theorem attemptAtomic_spec (left : Nat) (options : AtomicWriteOptions) (uniqueValue attempt : Nat) (last : IOError)
    (same : s.contents = before) :
    (attemptAtomic path bytes options uniqueValue left attempt last).Guarantees (Files.AnswersReliably schedule)
      (AllOrNothing before path bytes) s (fun _ s' => s'.contents = Function.update before path (some bytes))
      (fun _ s' => s'.contents = before) := by
  induction left generalizing attempt last s with
  | zero =>
    unfold attemptAtomic
    split
    · exact ⟨.untouched same, same⟩
    · exact ⟨.untouched same, same⟩
  | succ left ih =>
    apply guarantees_bind
    apply guarantees_attempt
    apply guarantees_perform (.untouched same)
    · intro file s₁ answered
      have apart := makeAtomicTempPath_ne path options uniqueValue attempt
      have absent : before (makeAtomicTempPath path options uniqueValue attempt) = none := by
        obtain ⟨-, content, opens, -⟩ := answered
        by_contra taken
        rw [← same] at taken
        simp [Files.openContent, taken] at opens
      have writing : Writing before file (makeAtomicTempPath path options uniqueValue attempt) [] s₁ := by
        have opened : s.Answers schedule ⟨.file, .openFile _ _⟩ (.ok file) s₁ := answered
        rw [← same]
        apply opened_writing opened [] _ (.inr rfl)
        intro content opens
        rw [same, absent] at opens
        exact (Option.some.inj opens).symm
      have touched : Touched before (makeAtomicTempPath path options uniqueValue attempt) s₁ := ⟨[], writing.1⟩
      exact ⟨touched.allOrNothing apart, publish_spec apart absent writing options⟩
    · intro e s₁ answered
      obtain rfl : s₁ = s := answered
      refine ⟨.untouched same, ?_⟩
      dsimp only
      split
      · exact ih (attempt + 1) e same
      · exact ⟨.untouched same, same⟩

theorem ensureParent_spec (path : Path) (options : AtomicWriteOptions) {keeps : Files → Prop} (start : keeps s) :
    (ensureParent path options).Guarantees (Files.AnswersReliably schedule) keeps s (fun _ s' => s' = s)
      (fun _ s' => s' = s) := by
  unfold ensureParent
  split
  · apply guarantees_perform start
    · intro a s' answered
      obtain rfl : s' = s := answered
      exact ⟨start, rfl⟩
    · intro e s' answered
      obtain rfl : s' = s := answered
      exact ⟨start, rfl⟩
  · exact ⟨start, rfl⟩

theorem writeAllBytesAtomic_spec (path : Path) (bytes : Bytes) (options : AtomicWriteOptions) (uniqueValue : Nat)
    (s : Files) :
    (writeAllBytesAtomic path bytes options uniqueValue).Guarantees (Files.AnswersReliably schedule)
      (AllOrNothing s.contents path bytes) s
      (fun _ s' => s'.contents = Function.update s.contents path (some bytes)) (fun _ s' => s'.contents = s.contents) := by
  apply guarantees_bind
  apply (ensureParent_spec path options (.untouched rfl)).mono
  · intro _ s₁ same
    exact attemptAtomic_spec 64 options uniqueValue 0 _ (by rw [same])
  · intro e s₁ same
    rw [same]

end

/-- Wherever a run stops, the target is as it was or complete. A run that ends has replaced the target, or has failed
    and left every file, the temporary one included, as it was. -/
theorem writeAllBytesAtomic_allOrNothing (schedule : Schedule) (path : Path) (bytes : Bytes)
    (options : AtomicWriteOptions) (uniqueValue : Nat) (s s' : Files) (rest : FileTask Unit)
    (run : Reaches (Files.AnswersReliably schedule) (writeAllBytesAtomic path bytes options uniqueValue, s) (rest, s')) :
    AllOrNothing s.contents path bytes s' ∧
      (rest = done (.ok ()) → s'.contents = Function.update s.contents path (some bytes)) ∧
      (∀ e, rest = done (.error e) → s'.contents = s.contents) ∧ rest ≠ pause := by
  have spec : (writeAllBytesAtomic path bytes options uniqueValue).Guarantees (Files.AnswersReliably schedule) _ s _ _ :=
    writeAllBytesAtomic_spec path bytes options uniqueValue s
  refine ⟨spec.keeps_all run, ?_, ?_, ?_⟩
  · rintro rfl
    exact spec.returned run
  · rintro e rfl
    exact spec.threw run
  · rintro rfl
    exact spec.unpaused run

theorem writeAllBytesAtomic_completes : ∃ s',
    Reaches (Files.AnswersReliably single)
      (writeAllBytesAtomic ⟨[0x66]⟩ [0x61] {} 7, { contents := fun _ => none }) (done (.ok ()), s') ∧
    s'.contents ⟨[0x66]⟩ = some [0x61] ∧ s'.contents (makeAtomicTempPath ⟨[0x66]⟩ {} 7 0) = none := by
  let tempPath := makeAtomicTempPath ⟨[0x66]⟩ {} 7 0
  let s : Files := { contents := fun _ => none }
  let file : OpenFile := { path := tempPath, access := .write }
  let s₁ : Files := { s.put tempPath (some []) with
    opened := Function.update s.opened ⟨0⟩ (some file)
    handles := 1 }
  let s₂ : Files := (s₁.put tempPath (some [0x61])).advance ⟨0⟩ file 1
  let s₃ : Files := { s₂ with opened := Function.update s₂.opened ⟨0⟩ none }
  let s₄ : Files := (s₃.put tempPath none).put ⟨[0x66]⟩ (some [0x61])
  have run : Reaches (Files.AnswersReliably single) (writeAllBytesAtomic ⟨[0x66]⟩ [0x61] {} 7, s) (done (.ok ()), s₄) := by
    apply reaches_answer (.ok ⟨0⟩) s₁ ⟨rfl, [], rfl, rfl⟩
    apply reaches_answer (.ok 1) s₂ (.inr ⟨file, [], rfl, rfl, rfl, rfl⟩)
    apply reaches_answer (.ok ()) s₂ rfl
    apply reaches_answer (.ok ()) s₃ rfl
    apply reaches_answer (.ok ()) s₄ ⟨[0x61], rfl, rfl⟩
    exact .refl
  obtain ⟨-, complete, -⟩ := writeAllBytesAtomic_allOrNothing single ⟨[0x66]⟩ [0x61] {} 7 s s₄ _ run
  have apart : tempPath ≠ ⟨[0x66]⟩ := makeAtomicTempPath_ne _ _ _ _
  refine ⟨s₄, run, ?_, ?_⟩
  · rw [complete rfl, Function.update_self]
  · rw [complete rfl, Function.update_of_ne apart]

end NginBase.IO
