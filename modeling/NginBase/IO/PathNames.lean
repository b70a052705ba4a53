import NginBase.IO.PathForm

namespace NginBase.IO.Path

open List

def findLastOf (c : UInt8) (view : Bytes) : Option Nat :=
  let upTo := view.rdropWhile (· != c)
  if upTo = [] then none else some (upTo.length - 1)

def stem (path : Path) : Bytes :=
  let name := path.filename
  match findLastOf 0x2E name with
  | none | some 0 => name
  | some dot => name.take dot

def extension (path : Path) : Bytes :=
  let name := path.filename
  match findLastOf 0x2E name with
  | none | some 0 => []
  | some dot => name.drop (dot + 1)

def replaceExtension (path : Path) (extension : Bytes) : Path :=
  let view := path.view
  let name := path.filename
  if name = [] then path
  else
    let start := view.length - name.length
    let out :=
      match findLastOf 0x2E name with
      | none | some 0 => view
      | some dot => view.take (start + dot)
    if extension = [] then ⟨out⟩
    else if extension.head? ≠ some 0x2E then ⟨out ++ [0x2E] ++ extension⟩
    else ⟨out ++ extension⟩

section

variable {dir name : Bytes}

def Directory (dir : Bytes) : Prop := (dir.getLast?).all isSeparator = true

def Plainly (name : Bytes) : Prop := ∀ c ∈ name, isSeparator c = false

theorem rtakeWhile_name (directory : Directory dir) (plainly : Plainly name) :
    (dir ++ name).rtakeWhile (!isSeparator ·) = name := by
  induction name using reverseRecOn with
  | nil =>
    rw [append_nil]
    cases dir using reverseRecOn with
    | nil => rfl
    | append_singleton front c =>
      have separator : isSeparator c = true := by simpa [Directory] using directory
      exact rtakeWhile_concat_neg _ _ _ (by simp [separator])
  | append_singleton front c ih =>
    have last : isSeparator c = false := plainly c (by simp)
    rw [← append_assoc, rtakeWhile_concat_pos _ _ _ (by simp [last]),
      ih fun d mem => plainly d (by simp [mem])]

theorem rdropWhile_name (directory : Directory dir) (plainly : Plainly name) :
    (dir ++ name).rdropWhile (!isSeparator ·) = dir := by
  have whole := rdropWhile_append_rtakeWhile (l := dir ++ name) (p := (!isSeparator ·))
  rw [rtakeWhile_name directory plainly] at whole
  exact append_cancel_right whole

theorem rdropWhile_append_of_pos {p : UInt8 → Bool} (front : Bytes) {back : Bytes} (all : ∀ c ∈ back, p c = true) :
    (front ++ back).rdropWhile p = front.rdropWhile p := by
  induction back using reverseRecOn with
  | nil => rw [append_nil]
  | append_singleton back c ih =>
    rw [← append_assoc, rdropWhile_concat_pos _ _ _ (all c (by simp)), ih fun d mem => all d (by simp [mem])]

theorem trimmed_name (dir : Bytes) (plainly : Plainly name) (some_ : name ≠ []) :
    (dir ++ name).rdropWhile isSeparator = dir ++ name := by
  rw [rdropWhile_eq_self_iff]
  intro some'
  rw [getLast_append_of_ne_nil _ some_, plainly _ (getLast_mem some_)]
  decide

theorem filename_parts (directory : Directory dir) (plainly : Plainly name) (some_ : name ≠ []) {separators : Bytes}
    (all : ∀ c ∈ separators, isSeparator c = true) : filename ⟨dir ++ name ++ separators⟩ = name := by
  unfold filename
  rw [rdropWhile_append_of_pos _ all, trimmed_name dir plainly some_, rtakeWhile_name directory plainly]

theorem plainly_rtakeWhile (view : Bytes) : Plainly (view.rtakeWhile (!isSeparator ·)) := by
  intro c mem
  have := mem_takeWhile_imp (mem_reverse.mp mem)
  simpa using this

theorem directory_rdropWhile (view : Bytes) : Directory (view.rdropWhile (!isSeparator ·)) := by
  unfold Directory
  cases left : view.rdropWhile (!isSeparator ·) with
  | nil => rfl
  | cons c rest =>
    have last := rdropWhile_last_not (!isSeparator ·) view (by rw [left]; simp)
    rw [← left, getLast?_eq_getLast_of_ne_nil (by rw [left]; simp)]
    simpa using last

theorem exists_parts (path : Path) : ∃ dir separators, path.view = dir ++ path.filename ++ separators ∧ Directory dir ∧
    Plainly path.filename ∧ ∀ c ∈ separators, isSeparator c = true := by
  refine ⟨(path.view.rdropWhile isSeparator).rdropWhile (!isSeparator ·), path.view.rtakeWhile isSeparator, ?_,
    directory_rdropWhile _, plainly_rtakeWhile _, ?_⟩
  · rw [filename, rdropWhile_append_rtakeWhile, rdropWhile_append_rtakeWhile]
  · intro c mem
    exact mem_takeWhile_imp (mem_reverse.mp mem)

theorem parent_name (plainly : Plainly name) (some_ : name ≠ []) :
    parent ⟨name⟩ = if isDrivePrefix name then ⟨name.take 2⟩ else ⟨[]⟩ := by
  have trimmed : name.rdropWhile isSeparator = name := trimmed_name [] plainly some_
  have start : ([] ++ name).rdropWhile (!isSeparator ·) = [] := rdropWhile_name rfl plainly
  rw [nil_append] at start
  have third : (name[2]?).any isSeparator = false := by
    cases third : name[2]? with
    | none => rfl
    | some c => exact plainly c (mem_of_getElem? third)
  have first : (name.head?).any isSeparator = false := by
    cases first : name.head? with
    | none => rfl
    | some c => exact plainly c (mem_of_mem_head? first)
  unfold parent
  rw [if_neg some_, trimmed, if_neg some_, start, third, first]
  rfl

def minimumParentEnd (view : Bytes) : Nat :=
  if isDrivePrefix view && (view[2]?).any isSeparator then 3 else if (view.head?).any isSeparator then 1 else 0

theorem minimumParentEnd_directory (directory : Directory dir) (nested : dir ≠ []) (name : Bytes) :
    minimumParentEnd (dir ++ name) = minimumParentEnd dir ∧ minimumParentEnd dir ≤ dir.length := by
  match dir, nested, directory with
  | [c], _, directory =>
    have separator : isSeparator c = true := by simpa [Directory] using directory
    have letter : isAlpha c = false := by
      by_contra alpha
      rw [separator_letter (by simpa using alpha)] at separator
      cases separator
    have driveless : isDrivePrefix (c :: name) = false := by
      cases name <;> simp [isDrivePrefix, letter]
    have driveless' : isDrivePrefix [c] = false := rfl
    rw [singleton_append, minimumParentEnd, minimumParentEnd, driveless]
    simp [separator]
  | [c, d], _, directory =>
    have separator : isSeparator d = true := by simpa [Directory] using directory
    have colon : (d == 0x3A) = false := by
      apply beq_false_of_ne
      rintro rfl
      cases separator
    have driveless (rest : Bytes) : isDrivePrefix (c :: d :: rest) = false := by simp [isDrivePrefix, colon]
    rw [cons_append, singleton_append, minimumParentEnd, minimumParentEnd, driveless, driveless]
    refine ⟨rfl, ?_⟩
    simp only [Bool.false_and, length_cons]
    rcases Bool.eq_false_or_eq_true ((([c, d] : Bytes).head?).any isSeparator) with first | first
    · rw [first]
      decide
    · rw [first]
      decide
  | c :: d :: e :: rest, _, _ =>
    refine ⟨rfl, ?_⟩
    have least : minimumParentEnd (c :: d :: e :: rest) ≤ 3 := by
      rw [minimumParentEnd]
      repeat' split
      all_goals omega
    simp only [length_cons]
    omega

theorem parent_directory (directory : Directory dir) (nested : dir ≠ []) (plainly : Plainly name) (some_ : name ≠ []) :
    parent ⟨dir ++ name⟩ = ⟨dir.take (max (minimumParentEnd dir) (dir.rdropWhile isSeparator).length)⟩ := by
  have trimmed := trimmed_name dir plainly some_
  have start := rdropWhile_name directory plainly
  have whole : dir ++ name ≠ [] := by simp [nested]
  have length : dir.length ≠ 0 := by simpa using nested
  have least := minimumParentEnd_directory directory nested name
  have shorter : (dir.rdropWhile isSeparator).length ≤ dir.length := ( rdropWhile_prefix _ _).length_le
  unfold parent
  rw [if_neg whole, trimmed, if_neg whole, start, if_neg length, take_left' rfl]
  show Path.mk ((dir ++ name).take (max (minimumParentEnd (dir ++ name)) _)) = _
  rw [least.1, take_append_of_le_length (by omega)]

end

section

variable {name e : Bytes}

theorem findLastOf_append (front : Bytes) {c : UInt8} (without : c ∉ e) : findLastOf c (front ++ c :: e) = some front.length := by
  have all : ∀ x ∈ e, (x != c) = true := by
    intro x mem
    simp only [bne_iff_ne]
    rintro rfl
    exact without mem
  have upTo : (front ++ c :: e).rdropWhile (· != c) = front ++ [c] := by
    rw [append_cons, rdropWhile_append_of_pos _ all, rdropWhile_concat_neg _ _ _ (by simp)]
  unfold findLastOf
  rw [upTo]
  simp

theorem findLastOf_split {c : UInt8} {i : Nat} (found : findLastOf c name = some i) :
    ∃ front after, front.length = i ∧ c ∉ after ∧ name = front ++ c :: after := by
  unfold findLastOf at found
  dsimp only at found
  split at found
  · cases found
  rename_i some_
  have last := rdropWhile_last_not (· != c) name some_
  have whole := rdropWhile_append_rtakeWhile (l := name) (p := (· != c))
  obtain ⟨front, d, is⟩ : ∃ front d, name.rdropWhile (· != c) = front ++ [d] :=
    ⟨_, _, (dropLast_append_getLast some_).symm⟩
  simp only [is, getLast_append_singleton, bne_iff_ne, not_not] at last
  subst last
  refine ⟨front, name.rtakeWhile (· != d), ?_, ?_, ?_⟩
  · rw [is] at found
    simpa using found
  · intro mem
    have := mem_takeWhile_imp (mem_reverse.mp mem)
    simp at this
  · rw [is] at whole
    simpa using whole.symm

theorem filename_extended (front : Bytes) (plainly : Plainly e) :
    filename ⟨front ++ 0x2E :: e⟩ = front.rtakeWhile (!isSeparator ·) ++ 0x2E :: e := by
  have inside : Plainly (front.rtakeWhile (!isSeparator ·) ++ 0x2E :: e) := by
    intro c mem
    rcases mem_append.mp mem with mem | mem
    · exact plainly_rtakeWhile front c mem
    rcases mem_cons.mp mem with rfl | mem
    · decide
    · exact plainly c mem
  have parts := filename_parts (directory_rdropWhile front) inside (by simp) (forall_mem_nil _)
  rw [append_nil, ← append_assoc, rdropWhile_append_rtakeWhile] at parts
  exact parts

theorem names_extended (front : Bytes) (plainly : Plainly e) (dotless : 0x2E ∉ e) (some_ : e ≠ []) :
    let file : Path := ⟨front ++ 0x2E :: e⟩
    let base := front.rtakeWhile (!isSeparator ·)
    (file.extension = e ↔ base ≠ []) ∧ (base ≠ [] → file.stem = base) := by
  intro file base
  have name : file.filename = base ++ 0x2E :: e := filename_extended front plainly
  have found : findLastOf 0x2E file.filename = some base.length := by rw [name, findLastOf_append base dotless]
  by_cases empty : base = []
  · have first : findLastOf 0x2E file.filename = some 0 := by rw [found, empty, length_nil]
    have nothing : file.extension = [] := by simp only [extension, first]
    simp [empty, nothing, some_.symm]
  · obtain ⟨c, rest, is⟩ := exists_cons_of_ne_nil empty
    have length : base.length = rest.length + 1 := by rw [is, length_cons]
    rw [length] at found
    constructor
    · refine iff_of_true ?_ empty
      simp only [extension, found]
      rw [← length, name, append_cons, drop_left' (by simp)]
    · intro _
      simp only [stem, found]
      rw [← length, name, take_left' rfl]

end

section

variable {path : Path} {dir e : Bytes}

def kept (path : Path) : Bytes :=
  match findLastOf 0x2E path.filename with
  | none | some 0 => path.view
  | some dot => path.view.take (path.view.length - path.filename.length + dot)

theorem replaceExtension_eq (named : path.filename ≠ []) (some_ : e ≠ []) (dotless : 0x2E ∉ e) {given : Bytes}
    (is : given = e ∨ given = 0x2E :: e) : path.replaceExtension given = ⟨path.kept ++ 0x2E :: e⟩ := by
  obtain ⟨c, rest, rfl⟩ := exists_cons_of_ne_nil some_
  have first : c ≠ 0x2E := by
    rintro rfl
    exact dotless mem_cons_self
  unfold replaceExtension kept
  rw [if_neg named]
  rcases is with rfl | rfl
  · rw [if_neg (by simp), if_pos (by simp [first])]
    simp
  · simp

theorem stem_starts (named : path.filename ≠ []) :
    path.stem ≠ [] ∧ (path.filename = path.stem ∨ ∃ after, path.filename = path.stem ++ 0x2E :: after) := by
  cases found : findLastOf 0x2E path.filename with
  | none => simpa only [stem, found] using ⟨named, .inl trivial⟩
  | some i =>
    cases i with
    | zero => simpa only [stem, found] using ⟨named, .inl trivial⟩
    | succ i =>
      obtain ⟨front, after, length, -, whole⟩ := findLastOf_split found
      have is : path.stem = front := by
        simp only [stem, found]
        rw [← length, whole, take_left' rfl]
      rw [is]
      refine ⟨?_, .inr ⟨after, whole⟩⟩
      rintro rfl
      cases length

theorem Plainly.stem (plainly : Plainly path.filename) (named : path.filename ≠ []) : Plainly path.stem := by
  intro c mem
  apply plainly c
  rcases (stem_starts named).2 with is | ⟨after, is⟩
  · rw [is]
    exact mem
  · rw [is]
    exact mem_append_left _ mem

theorem isDrivePrefix_stem {stem : Bytes} (some_ : stem ≠ []) (after : Bytes) :
    isDrivePrefix (stem ++ 0x2E :: after) = isDrivePrefix stem ∧
      (isDrivePrefix stem = true → (stem ++ 0x2E :: after).take 2 = stem.take 2) := by
  match stem, some_ with
  | [c], _ => simp [isDrivePrefix]
  | c :: d :: rest, _ => exact ⟨rfl, fun _ => rfl⟩

theorem kept_unterminated (whole : path.view = dir ++ path.filename) : path.kept = dir ++ path.stem := by
  have start : path.view.length - path.filename.length = dir.length := by
    rw [whole, length_append]
    omega
  unfold kept
  cases found : findLastOf 0x2E path.filename with
  | none => simpa only [stem, found] using whole
  | some i =>
    cases i with
    | zero => simpa only [stem, found] using whole
    | succ i =>
      simp only [stem, found]
      rw [start, whole, take_append, take_of_length_le (by omega)]
      congr 2
      omega

theorem parent_unterminated (named : path.filename ≠ []) (plainly : Plainly path.filename) (directory : Directory dir)
    (whole : path.view = dir ++ path.filename) (tidy : Plainly e) :
    parent ⟨dir ++ (path.stem ++ 0x2E :: e)⟩ = path.parent := by
  have written : path = ⟨dir ++ path.filename⟩ := by rw [← whole]
  have plainly' : Plainly (path.stem ++ 0x2E :: e) := by
    intro c mem
    rcases mem_append.mp mem with mem | mem
    · exact plainly.stem named c mem
    rcases mem_cons.mp mem with rfl | mem
    · decide
    · exact tidy c mem
  conv_rhs => rw [written]
  by_cases nested : dir = []
  · subst nested
    rw [nil_append, nil_append, parent_name plainly named, parent_name plainly' (by simp)]
    obtain ⟨some_, starts⟩ := stem_starts named
    have extended := isDrivePrefix_stem some_ e
    rcases starts with is | ⟨after, is⟩
    · rw [is, extended.1]
      split
      · rename_i drive
        rw [extended.2 drive]
      · rfl
    · have before := isDrivePrefix_stem some_ after
      rw [is, extended.1, before.1]
      split
      · rename_i drive
        rw [extended.2 drive, before.2 drive]
      · rfl
  · rw [parent_directory directory nested plainly named, parent_directory directory nested plainly' (by simp)]

structure ReplacesExtension (path changed : Path) (e : Bytes) : Prop where
  extension : changed.extension = e
  stem : changed.stem = path.stem
  parent : changed.parent = path.parent

theorem rtakeWhile_separators (front : Bytes) {separators : Bytes} (some_ : separators ≠ [])
    (all : ∀ c ∈ separators, isSeparator c = true) : (front ++ separators).rtakeWhile (!isSeparator ·) = [] := by
  rw [rtakeWhile_eq_nil_iff]
  intro some'
  rw [getLast_append_of_ne_nil _ some_, all _ (getLast_mem some_)]
  decide

theorem kept_terminated (directory : Directory dir) (plainly : Plainly path.filename)
    {separators : Bytes} (whole : path.view = dir ++ path.filename ++ separators) (some_ : separators ≠ [])
    (all : ∀ c ∈ separators, isSeparator c = true) :
    path.kept.rtakeWhile (!isSeparator ·) = [] ∨ path.stem.length < (path.kept.rtakeWhile (!isSeparator ·)).length := by
  have several : 0 < separators.length := length_pos_iff.mpr some_
  have start : path.view.length - path.filename.length = dir.length + separators.length := by
    rw [whole, length_append, length_append]
    omega
  have hidden : path.kept = path.view → path.kept.rtakeWhile (!isSeparator ·) = [] := by
    intro is
    rw [is, whole, rtakeWhile_separators _ some_ all]
  cases found : findLastOf 0x2E path.filename with
  | none => exact .inl (hidden (by simp only [kept, found]))
  | some i =>
    cases i with
    | zero => exact .inl (hidden (by simp only [kept, found]))
    | succ i =>
      have written : path.kept = dir ++ (path.filename ++ separators).take (separators.length + (i + 1)) := by
        simp only [kept, found]
        rw [start, whole, append_assoc, Nat.add_assoc, take_length_add_append]
      rw [written]
      by_cases inside : separators.length + (i + 1) ≤ path.filename.length
      · right
        have stem_ : path.stem = path.filename.take (i + 1) := by simp only [stem, found]
        have clean : Plainly (path.filename.take (separators.length + (i + 1))) :=
          fun c mem => plainly c (mem_of_mem_take mem)
        rw [take_append_of_le_length inside, rtakeWhile_name directory clean, stem_, length_take, length_take]
        omega
      · left
        rw [take_append, ← append_assoc]
        apply rtakeWhile_separators
        · rw [ne_eq, take_eq_nil_iff]
          rintro (zero | none)
          · omega
          · exact some_ none
        · exact fun c mem => all c (mem_of_mem_take mem)

/-- `ReplaceExtension` changes the extension and nothing else exactly if the path does not end with a separator. -/
theorem replaceExtension_iff (path : Path) (named : path.filename ≠ []) (e given : Bytes) (some_ : e ≠ [])
    (tidy : Plainly e) (dotless : 0x2E ∉ e) (is : given = e ∨ given = 0x2E :: e) :
    ReplacesExtension path (path.replaceExtension given) e ↔ ¬(path.view.getLast?).any isSeparator = true := by
  obtain ⟨dir, separators, whole, directory, plainly, all⟩ := exists_parts path
  obtain ⟨extension_, stem_⟩ := names_extended path.kept tidy dotless some_
  rw [replaceExtension_eq named some_ dotless is]
  by_cases terminated : separators = []
  · subst terminated
    rw [append_nil] at whole
    have written := kept_unterminated whole
    have base : path.kept.rtakeWhile (!isSeparator ·) = path.stem := by
      rw [written, rtakeWhile_name directory (plainly.stem named)]
    have some' := (stem_starts named).1
    refine iff_of_true ⟨?_, ?_, ?_⟩ ?_
    · exact extension_.mpr (base ▸ some')
    · exact (stem_ (base ▸ some')).trans base
    · rw [written, append_assoc]
      exact parent_unterminated named plainly directory whole tidy
    · rw [whole, getLast?_append_of_ne_nil _ named, getLast?_eq_getLast_of_ne_nil named]
      simpa using plainly _ (getLast_mem named)
  · refine iff_of_false ?_ ?_
    · intro replaces
      have some' := extension_.mp replaces.extension
      rcases kept_terminated directory plainly whole terminated all with none | longer
      · exact some' none
      · rw [← replaces.stem, stem_ some'] at longer
        exact Nat.lt_irrefl _ longer
    · rw [whole, getLast?_append_of_ne_nil _ terminated, getLast?_eq_getLast_of_ne_nil terminated]
      simpa using all _ (getLast_mem terminated)

theorem replaceExtension_iff_short : ReplacesExtension ⟨[0x61, 0x2E, 0x62]⟩ (replaceExtension ⟨[0x61, 0x2E, 0x62]⟩ [0x63]) [0x63] :=
  (replaceExtension_iff ⟨[0x61, 0x2E, 0x62]⟩ (by decide) [0x63] [0x63] (by decide) (by simp [Plainly, isSeparator]) (by decide) (.inl rfl)).mpr
    (by decide)

theorem replaceExtension_terminated : ¬∀ (path : Path) (e given : Bytes), path.filename ≠ [] → e ≠ [] → Plainly e → 0x2E ∉ e →
    (given = e ∨ given = 0x2E :: e) → ReplacesExtension path (path.replaceExtension given) e := by
  intro all
  have replaces := all ⟨[0x61, 0x2E, 0x74, 0x78, 0x74, 0x2F]⟩ [0x6D, 0x64] [0x6D, 0x64] (by decide) (by decide)
    (by simp [Plainly, isSeparator]) (by decide) (.inl rfl)
  exact absurd replaces.stem (by decide)

end

end NginBase.IO.Path
