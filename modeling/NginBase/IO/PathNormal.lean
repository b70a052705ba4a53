import NginBase.IO.PathForm

namespace NginBase.IO.Path

open List

/-- Where a path leads: so many directories up, and then down by the names. -/
structure Location where
  ups : Nat := 0
  names : List Bytes := []

namespace Location

def enter (location : Location) (segment : Bytes) : Location :=
  if segment = [] ∨ segment = dot then location
  else if segment = dotDot then
    if location.names = [] then { location with ups := location.ups + 1 }
    else { location with names := location.names.dropLast }
  else { location with names := location.names ++ [segment] }

def follow (location : Location) (segments : List Bytes) : Location := segments.foldl enter location

def stack (absolute : Bool) (location : Location) : List Bytes :=
  if absolute then location.names else replicate location.ups dotDot ++ location.names

def Named (location : Location) : Prop := ∀ name ∈ location.names, Clean name ∧ name ≠ dot ∧ name ≠ dotDot

variable {location : Location} {segment : Bytes}

theorem Named.enter (named : location.Named) (clean : Clean segment) : (location.enter segment).Named := by
  unfold Location.enter
  split
  · exact named
  rename_i notDot
  split
  · split
    · exact named
    · intro name mem
      exact named name (dropLast_subset _ mem)
  · rename_i notDotDot
    intro name mem
    rcases mem_append.mp mem with mem | mem
    · exact named name mem
    · rw [mem_singleton.mp mem]
      exact ⟨clean, fun is => notDot (.inr is), notDotDot⟩

theorem Named.follow {segments : List Bytes} (named : location.Named) (clean : ∀ s ∈ segments, Clean s) :
    (location.follow segments).Named := by
  induction segments generalizing location with
  | nil => exact named
  | cons segment rest ih =>
    exact ih (named.enter (clean segment (by simp))) fun s mem => clean s (by simp [mem])

theorem Named.empty : (⟨0, []⟩ : Location).Named := by
  intro name mem
  cases mem

theorem Named.dotDot_notMem (named : location.Named) : dotDot ∉ location.names :=
  fun mem => (named _ mem).2.2 rfl

theorem pushSegment_stack (absolute : Bool) (named : location.Named) (segment : Bytes) :
    pushSegment absolute (location.stack absolute) segment = (location.enter segment).stack absolute := by
  obtain ⟨ups, names⟩ := location
  have last : names ≠ [] → names.getLast? ≠ some dotDot := by
    intro _ is
    exact named.dotDot_notMem (mem_of_getLast? is)
  unfold pushSegment enter
  split
  · rfl
  split
  · rename_i up
    by_cases none : names = []
    · subst none up
      cases absolute with
      | true => simp [stack]
      | false => cases ups <;> simp [stack, replicate_succ']
    · cases absolute with
      | true => simp [stack, none, last none]
      | false =>
        have whole : (replicate ups dotDot ++ names).getLast? ≠ some dotDot := by
          rw [getLast?_append_of_ne_nil _ none]
          exact last none
        simp only [stack, Bool.false_eq_true, if_false, if_neg none]
        rw [if_pos ⟨by simp [none], whole⟩, dropLast_append_of_ne_nil none]
  · cases absolute <;> simp [stack]

theorem foldl_pushSegment (absolute : Bool) (segments : List Bytes) (named : location.Named)
    (clean : ∀ s ∈ segments, Clean s) :
    segments.foldl (pushSegment absolute) (location.stack absolute) = (location.follow segments).stack absolute := by
  induction segments generalizing location with
  | nil => rfl
  | cons segment rest ih =>
    rw [foldl_cons, pushSegment_stack absolute named segment]
    exact ih (named.enter (clean segment (by simp))) fun s mem => clean s (by simp [mem])

theorem follow_names (named : location.Named) (start : Location) :
    start.follow location.names = { start with names := start.names ++ location.names } := by
  obtain ⟨ups, names⟩ := location
  induction names generalizing start with
  | nil => simp [follow]
  | cons name rest ih =>
    obtain ⟨clean, notDot, notDotDot⟩ := named name (by simp)
    have entered : start.enter name = { start with names := start.names ++ [name] } := by
      simp [enter, clean.1, notDot, notDotDot]
    have tail : (⟨ups, rest⟩ : Location).Named := fun s mem => named s (mem_cons_of_mem _ mem)
    show (start.enter name).follow rest = _
    rw [entered, ih _ tail]
    simp

theorem follow_ups (count ups : Nat) : (⟨ups, []⟩ : Location).follow (replicate count dotDot) = ⟨ups + count, []⟩ := by
  induction count generalizing ups with
  | zero => rfl
  | succ count ih =>
    show (⟨ups + 1, []⟩ : Location).follow _ = _
    rw [ih]
    simp [Nat.add_comm, Nat.add_left_comm]

theorem follow_pops (names : List Bytes) (count : Nat) : (⟨0, names⟩ : Location).follow (replicate count dotDot) =
      ⟨count - names.length, names.take (names.length - count)⟩ := by
  induction count generalizing names with
  | zero => simp [follow]
  | succ count ih =>
    show ((⟨0, names⟩ : Location).enter dotDot).follow _ = _
    by_cases none : names = []
    · subst none
      have up : (⟨0, []⟩ : Location).enter dotDot = ⟨1, []⟩ := rfl
      rw [up, follow_ups]
      simp [Nat.add_comm]
    · have back : (⟨0, names⟩ : Location).enter dotDot = ⟨0, names.dropLast⟩ := by
        simp [enter, none, dotDot, dot]
      have some_ : 0 < names.length := length_pos_iff.mpr none
      rw [back, ih, length_dropLast, dropLast_eq_take, take_take]
      congr 1
      · omega
      · congr 1
        omega

theorem follow_stack (absolute : Bool) (named : location.Named) :
    (⟨0, []⟩ : Location).follow (location.stack absolute) = if absolute then ⟨0, location.names⟩ else location := by
  cases absolute with
  | true => simpa [stack] using follow_names named ⟨0, []⟩
  | false =>
    show (⟨0, []⟩ : Location).follow (replicate location.ups dotDot ++ location.names) = location
    unfold follow
    rw [foldl_append]
    have up := follow_ups location.ups 0
    unfold follow at up
    rw [up]
    have down := follow_names named ⟨0 + location.ups, []⟩
    unfold follow at down
    rw [down]
    simp

theorem stack_clean (absolute : Bool) (named : location.Named) : ∀ s ∈ location.stack absolute, Clean s := by
  intro s mem
  have up : Clean dotDot := ⟨by decide, by simp [dotDot, isSeparator]⟩
  cases absolute with
  | true => exact (named s mem).1
  | false =>
    rcases mem_append.mp mem with mem | mem
    · rw [eq_of_mem_replicate mem]
      exact up
    · exact (named s mem).1

end Location

/-- Where a text leads from its root, or from the directory it is relative to. -/
def location (view : Bytes) : Location := (⟨0, []⟩ : Location).follow (segments view)

theorem location_named (view : Bytes) : (location view).Named := Location.Named.empty.follow (segments_clean view)

theorem lexicallyNormal_eq (path : Path) :
    path.lexicallyNormal = ⟨text (drive path.view) (rooted path.view) ((location path.view).stack (rooted path.view))⟩ := by
  unfold lexicallyNormal
  dsimp only
  split
  · rename_i empty
    obtain ⟨view⟩ := path
    subst empty
    rfl
  · have stacked : (segments path.view).foldl (pushSegment (rooted path.view)) [] =
        (location path.view).stack (rooted path.view) := by
      rw [location, ← Location.foldl_pushSegment (rooted path.view) (segments path.view) Location.Named.empty
        (segments_clean path.view)]
      cases rooted path.view <;> rfl
    show Path.mk (appendSegments (rooted path.view) 0 (drive path.view ++ if rooted path.view then [0x2F] else [])
      ((segments path.view).foldl (pushSegment (rooted path.view)) [])) = _
    rw [stacked, appendSegments_eq]
    exact Location.stack_clean _ (location_named path.view)

section

structure IsNormalForm (path normal : Path) : Prop where
  idempotent : normal.lexicallyNormal = normal
  absolute : normal.isAbsolute = path.isAbsolute
  components : ∀ component ∈ normal.components, component ≠ [] ∧ component ≠ dot
  separators : 0x5C ∉ normal.view
  climbs : ∃ ups names, normal.components = replicate ups dotDot ++ names ∧ dotDot ∉ names ∧
    (normal.isAbsolute = true → ups = 0)

/-- A relative path without a drive that leads to a name in the place of a drive: `X:` with a name after it, or `X:.`. -/
def Recast (path : Path) : Prop :=
  drive path.view = [] ∧ rooted path.view = false ∧ (location path.view).ups = 0 ∧
    ∃ letter rest names, isAlpha letter = true ∧ (location path.view).names = (letter :: 0x3A :: rest) :: names ∧
      (rest = [] ∧ names ≠ [] ∨ rest = dot)

variable {d : Bytes} {absolute : Bool} {place : Location}

theorem normal_of_plain (isDrive : IsDrive d) (named : place.Named) (plain : Plain d absolute (place.stack absolute)) :
    (⟨text d absolute (place.stack absolute)⟩ : Path).lexicallyNormal = ⟨text d absolute (place.stack absolute)⟩ := by
  have clean := Location.stack_clean absolute named
  have back : (location (text d absolute (place.stack absolute))).stack absolute = place.stack absolute := by
    rw [location, segments_text isDrive clean plain, Location.follow_stack absolute named]
    cases absolute <;> rfl
  rw [lexicallyNormal_eq]
  rw [drive_text isDrive clean plain, rooted_text isDrive clean plain, back]

theorem components_stack (absolute : Bool) (named : place.Named) :
    ∃ ups names, place.stack absolute = replicate ups dotDot ++ names ∧ dotDot ∉ names ∧
      (absolute = true → ups = 0) := by
  cases absolute with
  | true => exact ⟨0, place.names, rfl, named.dotDot_notMem, fun _ => rfl⟩
  | false => exact ⟨place.ups, place.names, rfl, named.dotDot_notMem, fun impossible => by cases impossible⟩

theorem stack_parts (absolute : Bool) (named : place.Named) :
    ∀ component ∈ place.stack absolute, component ≠ [] ∧ component ≠ dot := by
  intro component mem
  refine ⟨(Location.stack_clean absolute named component mem).1, ?_⟩
  cases absolute with
  | true => exact (named component mem).2.1
  | false =>
    rcases mem_append.mp mem with mem | mem
    · rw [eq_of_mem_replicate mem]
      decide
    · exact (named component mem).2.1

theorem isNormalForm_of_plain {path : Path} (isDrive : IsDrive d) (named : place.Named)
    (plain : Plain d absolute (place.stack absolute)) (same : path.isAbsolute = absolute) :
    IsNormalForm path ⟨text d absolute (place.stack absolute)⟩ := by
  have clean := Location.stack_clean absolute named
  have root : (⟨text d absolute (place.stack absolute)⟩ : Path).isAbsolute = absolute := by
    rw [isAbsolute_eq]
    exact rooted_text isDrive clean plain
  have parts := components_text isDrive clean plain
  exact {
    idempotent := normal_of_plain isDrive named plain
    absolute := root.trans same.symm
    components := by rw [parts]; exact stack_parts absolute named
    separators := text_separators isDrive clean
    climbs := by rw [parts, root]; exact components_stack absolute named }

section

variable {letter : UInt8} {rest : Bytes} {names : List Bytes}

theorem text_drive_root (more : names ≠ []) : text [] false ([letter, 0x3A] :: names) = text [letter, 0x3A] true names := by
  obtain ⟨name, others, rfl⟩ := exists_cons_of_ne_nil more
  simp [text, joined]

theorem text_drive_name : text [] false ((letter :: 0x3A :: rest) :: names) = text [letter, 0x3A] false (rest :: names) := by
  simp [text, joined]

theorem plain_of_drive {absolute : Bool} {parts : List Bytes} : Plain [letter, 0x3A] absolute parts :=
  fun none => by cases none

theorem Clean.afterDrive (clean : Clean (letter :: 0x3A :: rest)) (more : rest ≠ []) : Clean rest :=
  ⟨more, fun c mem => clean.2 c (by simp [mem])⟩

theorem clean_afterDrive (clean : ∀ s ∈ (letter :: 0x3A :: rest) :: names, Clean s) (more : rest ≠ []) :
    ∀ s ∈ rest :: names, Clean s := by
  intro s mem
  rcases mem_cons.mp mem with rfl | mem
  · exact (clean _ mem_cons_self).afterDrive more
  · exact clean s (mem_cons_of_mem _ mem)

theorem isNormalForm_recast {path : Path} (relative : path.isAbsolute = false) (alpha : isAlpha letter = true)
    (named : (⟨0, (letter :: 0x3A :: rest) :: names⟩ : Location).Named) :
    IsNormalForm path ⟨text [] false ((letter :: 0x3A :: rest) :: names)⟩ ↔ ¬(rest = [] ∧ names ≠ [] ∨ rest = dot) := by
  have isDrive : IsDrive [letter, 0x3A] := .inr ⟨letter, alpha, rfl⟩
  have tail : ∀ name ∈ names, Clean name ∧ name ≠ dot ∧ name ≠ dotDot := fun name mem => named name (by simp [mem])
  have clean := (named _ (mem_cons_self ..)).1
  by_cases none : rest = []
  · subst none
    by_cases more : names = []
    · subst more
      have normal : IsNormalForm path ⟨text [letter, 0x3A] false ((⟨0, []⟩ : Location).stack false)⟩ :=
        isNormalForm_of_plain isDrive Location.Named.empty plain_of_drive relative
      exact iff_of_true normal (by decide)
    · rw [text_drive_root more]
      refine iff_of_false ?_ (fun fails => fails (.inl ⟨rfl, more⟩))
      intro normal
      have absolute := normal.absolute
      rw [relative, isAbsolute_eq] at absolute
      rw [rooted_text isDrive (fun s mem => (tail s mem).1) plain_of_drive] at absolute
      cases absolute
  · have afterwards := clean.afterDrive none
    rw [text_drive_name]
    by_cases single : rest = dot
    · refine iff_of_false ?_ (fun fails => fails (.inr single))
      intro normal
      have parts := normal.components
      rw [components_text isDrive (by simpa using ⟨afterwards, fun s mem => (tail s mem).1⟩) plain_of_drive] at parts
      exact (parts rest (by simp)).2 single
    · refine iff_of_true ?_ (by simp [none, single])
      by_cases double : rest = dotDot
      · have normal : IsNormalForm path ⟨text [letter, 0x3A] false ((⟨1, names⟩ : Location).stack false)⟩ :=
          isNormalForm_of_plain isDrive tail plain_of_drive relative
        rw [double]
        exact normal
      · have named' : (⟨0, rest :: names⟩ : Location).Named := by
          intro name mem
          rcases mem_cons.mp mem with rfl | mem
          · exact ⟨afterwards, single, double⟩
          · exact tail name mem
        exact isNormalForm_of_plain isDrive named' plain_of_drive relative

end

/-- `LexicallyNormal` yields a normal form unless the text of the result starts with a drive that the path did not
    start with, and what follows that drive is a separator or the segment `.`. -/
theorem lexicallyNormal_isNormalForm (path : Path) : IsNormalForm path path.lexicallyNormal ↔ ¬Recast path := by
  have named := location_named path.view
  have isDrive := drive_isDrive path.view
  rw [lexicallyNormal_eq]
  by_cases plain : Plain (drive path.view) (rooted path.view) ((location path.view).stack (rooted path.view))
  · refine iff_of_true (isNormalForm_of_plain isDrive named plain (isAbsolute_eq path)) ?_
    rintro ⟨driveless, relative, ups, letter, rest, names, alpha, is, _⟩
    have unprefixed := plain driveless relative (letter :: 0x3A :: rest)
      (by rw [relative, Location.stack, ups, is]; rfl)
    simp [isDrivePrefix, alpha] at unprefixed
  · obtain ⟨driveless, relative, letter, rest, others, alpha, stacked⟩ := segments_of_not_plain plain
    obtain ⟨ups, names, is⟩ : ∃ ups names, location path.view = ⟨ups, names⟩ := ⟨_, _, rfl⟩
    rw [is] at named
    rw [relative, is] at stacked
    have level : ups = 0 := by
      cases ups with
      | zero => rfl
      | succ ups => simp [Location.stack, replicate_succ, dotDot] at stacked
    subst level
    obtain rfl : names = (letter :: 0x3A :: rest) :: others := stacked
    rw [driveless, relative, is]
    refine (isNormalForm_recast ((isAbsolute_eq path).trans relative) alpha named).trans (not_congr ?_)
    constructor
    · intro kind
      exact ⟨driveless, relative, by rw [is], letter, rest, others, alpha, by rw [is], kind⟩
    · rintro ⟨_, _, _, letter', rest', names', _, same, kind⟩
      rw [is] at same
      obtain ⟨⟨-, -, rfl⟩, rfl⟩ := same
      exact kind

theorem lexicallyNormal_recasts : ¬∀ path : Path, IsNormalForm path path.lexicallyNormal := by
  intro all
  have absolute := (all ⟨[0x2E, 0x2F, 0x43, 0x3A, 0x2F, 0x78]⟩).absolute
  revert absolute
  decide +kernel

end

end NginBase.IO.Path
