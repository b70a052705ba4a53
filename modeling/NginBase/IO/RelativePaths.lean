import NginBase.IO.PathJoin

namespace NginBase.IO.Path

open List Location

/-- The loop of `SplitNormalizedComponents`, which begins behind the drive and one separator. -/
def splitNormalizedComponents (value : Bytes) : List Bytes :=
  let pos :=
    if isDrivePrefix value then if (value[2]?).any isSeparator then 3 else 2
    else if (value.head?).any isSeparator then 1 else 0
  scan ((value.drop pos).dropWhile isSeparator)

def toLower (c : UInt8) : UInt8 := if 0x41 ≤ c && c ≤ 0x5A then c + 0x20 else c

def commonLength : List Bytes → List Bytes → Nat
  | l :: lhs, r :: rhs => if l = r then commonLength lhs rhs + 1 else 0
  | _, _ => 0

def lexicallyRelativeTo (path base : Path) : Path :=
  let lhs := path.lexicallyNormal
  let rhs := base.lexicallyNormal
  if lhs.isAbsolute ≠ rhs.isAbsolute then lhs
  else if isDrivePrefix lhs.view ≠ isDrivePrefix rhs.view then lhs
  else if isDrivePrefix lhs.view ∧ lhs.view.head?.map toLower ≠ rhs.view.head?.map toLower then lhs
  else
    let lhsParts := splitNormalizedComponents lhs.view
    let rhsParts := splitNormalizedComponents rhs.view
    let common := commonLength lhsParts rhsParts
    let parts := replicate (rhsParts.length - common) dotDot ++ lhsParts.drop common
    -- a separator stands before every part but the first
    ⟨if parts = [] then dot else joined parts⟩

theorem dropWhile_append_separators {separators : Bytes} (all : ∀ c ∈ separators, isSeparator c = true) (tail : Bytes) :
    (separators ++ tail).dropWhile isSeparator = tail.dropWhile isSeparator := dropWhile_append_of_pos all

theorem scan_cut (front tail : Bytes) (some_ : front ≠ []) (head : front.head?.any isSeparator = false)
    (cut : front.getLast?.any isSeparator = true ∨ tail.head?.any isSeparator = true) :
    scan (front ++ tail) = scan front ++ scan (tail.dropWhile isSeparator) := by
  induction length : front.length using Nat.strong_induction_on generalizing front with
  | _ n ih =>
    obtain ⟨segment, rest, whole, clean, ends⟩ : ∃ segment rest, front = segment ++ rest ∧ Clean segment ∧
        rest.head?.all isSeparator = true := by
      refine ⟨front.takeWhile (!isSeparator ·), front.dropWhile (!isSeparator ·), takeWhile_append_dropWhile.symm, ⟨?_, ?_⟩, ?_⟩
      · obtain ⟨c, more, rfl⟩ := exists_cons_of_ne_nil some_
        have plain : isSeparator c = false := by simpa using head
        simp [plain]
      · intro c mem
        simpa using mem_takeWhile_imp mem
      · have := head?_dropWhile_not (!isSeparator ·) front
        cases left : front.dropWhile (!isSeparator ·) with
        | nil => rfl
        | cons c more =>
          rw [left] at this
          simpa using this
    have alone : scan front = segment :: scan (rest.dropWhile isSeparator) := by rw [whole, scan_segment clean ends]
    by_cases last : rest = []
    · -- the cut is made by the tail
      subst last
      rw [append_nil] at whole
      have plainEnd : front.getLast?.any isSeparator = false := by
        rw [whole, getLast?_eq_getLast_of_ne_nil clean.1]
        exact clean.2 _ (getLast_mem clean.1)
      have next : tail.head?.all isSeparator = true := by
        have := cut.resolve_left (by rw [plainEnd]; decide)
        cases tail with
        | nil => rfl
        | cons c more => simpa using this
      rw [alone, whole, scan_segment clean next]
      rfl
    · have endsWhole : (rest ++ tail).head?.all isSeparator = true := by
        obtain ⟨c, more, rfl⟩ := exists_cons_of_ne_nil last
        simpa using ends
      rw [alone, whole, append_assoc, scan_segment clean endsWhole]
      by_cases spent : rest.dropWhile isSeparator = []
      · have all : ∀ c ∈ rest, isSeparator c = true := dropWhile_eq_nil_iff.mp spent
        rw [dropWhile_append_separators all, spent]
        rfl
      · have shorter : (rest.dropWhile isSeparator).length < n := by
          have := length_dropWhile_le isSeparator rest
          have := length_pos_iff.mpr clean.1
          rw [← length, whole, length_append]
          omega
        have first : (rest.dropWhile isSeparator).head?.any isSeparator = false := by
          have := head?_dropWhile_not isSeparator rest
          cases left : rest.dropWhile isSeparator with
          | nil => rfl
          | cons c more =>
            rw [left] at this
            simpa using this
        have same : (rest.dropWhile isSeparator).getLast? = front.getLast? := by
          obtain ⟨skipped, is⟩ := dropWhile_suffix (p := isSeparator) (l := rest)
          conv_rhs => rw [whole, ← is, getLast?_append_of_ne_nil _ (by simp [spent]), getLast?_append_of_ne_nil _ spent]
        have onward : (rest ++ tail).dropWhile isSeparator = rest.dropWhile isSeparator ++ tail := by
          rw [dropWhile_append, if_neg (by simpa using spent)]
        rw [onward, ih _ shorter _ spent first (by rw [same]; exact cut) rfl]
        rfl

theorem drive_separator {d : Bytes} (isDrive : IsDrive d) {c : UInt8} (separator : isSeparator c = true) (tail : Bytes) :
    drive (d ++ c :: tail) = d := by
  rcases isDrive with rfl | ⟨letter, alpha, rfl⟩
  · have driveless : isDrivePrefix (c :: tail) = false := by
      have letter : isAlpha c = false := by
        by_contra alpha
        rw [separator_letter (by simpa using alpha)] at separator
        cases separator
      cases tail <;> simp [isDrivePrefix, letter]
    rw [nil_append, drive, driveless]
    rfl
  · simp [drive, isDrivePrefix, alpha]

theorem segments_separator {d : Bytes} (isDrive : IsDrive d) {c : UInt8} (separator : isSeparator c = true) (tail : Bytes) :
    segments (d ++ c :: tail) = scan (tail.dropWhile isSeparator) := by
  unfold segments
  rw [drive_separator isDrive separator, drop_left, dropWhile_cons_of_pos separator]
  rfl

theorem isAbsolute_split {path : Path} (absolute : path.isAbsolute = true) :
    ∃ c tail, isSeparator c = true ∧ path.view = drive path.view ++ c :: tail := by
  rw [isAbsolute_eq, rooted] at absolute
  have start : path.view = drive path.view ++ path.view.drop (drive path.view).length := by
    conv_lhs => rw [← take_append_drop (drive path.view).length path.view]
    congr 1
    unfold drive
    split
    · simp
    · rfl
  cases left : path.view.drop (drive path.view).length with
  | nil =>
    rw [left] at absolute
    cases absolute
  | cons c tail =>
    rw [left] at absolute start
    exact ⟨c, tail, by simpa using absolute, start⟩

theorem join_segments {base : Path} (absolute : base.isAbsolute = true) {parts : List Bytes} (clean : ∀ s ∈ parts, Clean s) :
    let view := (base.join (joined parts)).view
    drive view = drive base.view ∧ rooted view = true ∧ segments view = segments base.view ++ parts := by
  intro view
  by_cases none : parts = []
  · subst none
    exact ⟨rfl, (isAbsolute_eq base).symm.trans absolute, (append_nil _).symm⟩
  obtain ⟨c, tail, separator, written⟩ := isAbsolute_split absolute
  have isDrive := drive_isDrive base.view
  have head := joined_head clean
  have kept : (joined parts).dropWhile isSeparator = joined parts := dropWhile_joined clean
  obtain ⟨glue, all, cut, whole⟩ : ∃ glue : Bytes, (∀ c ∈ glue, isSeparator c = true) ∧
      (base.view.getLast?.any isSeparator = true ∨ glue.head?.any isSeparator = true) ∧
      view = drive base.view ++ c :: (tail ++ (glue ++ joined parts)) := by
    have some_ : base.view ≠ [] := by
      rw [written]
      simp
    have nonempty : joined parts ≠ [] := by
      obtain ⟨segment, others, rfl⟩ := exists_cons_of_ne_nil none
      simp [joined, (clean segment (by simp)).1]
    by_cases last : base.view.getLast?.any isSeparator = true
    · refine ⟨[], by simp, .inl last, ?_⟩
      show (base.join _).view = _
      rw [join, if_neg nonempty, if_neg fun closed => closed.2 last]
      conv_lhs => rw [written]
      simp
    · refine ⟨[0x2F], by simp [isSeparator], .inr rfl, ?_⟩
      show (base.join _).view = _
      rw [join, if_neg nonempty, if_pos ⟨some_, last⟩]
      conv_lhs => rw [written]
      simp
  have read : rooted view = true := by
    rw [rooted, whole, drive_separator isDrive separator, drop_left]
    exact separator
  refine ⟨by rw [whole, drive_separator isDrive separator], read, ?_⟩
  conv_rhs => rw [written, segments_separator isDrive separator]
  rw [whole, segments_separator isDrive separator]
  by_cases spent : tail.dropWhile isSeparator = []
  · rw [dropWhile_append_separators (dropWhile_eq_nil_iff.mp spent), dropWhile_append_separators all, kept,
      scan_joined clean, spent]
    rfl
  · have first : (tail.dropWhile isSeparator).head?.any isSeparator = false := by
      have := head?_dropWhile_not isSeparator tail
      cases left : tail.dropWhile isSeparator with
      | nil => rfl
      | cons c more =>
        rw [left] at this
        simpa using this
    have last : (tail.dropWhile isSeparator).getLast? = base.view.getLast? := by
      obtain ⟨skipped, is⟩ := dropWhile_suffix (p := isSeparator) (l := tail)
      conv_rhs => rw [written, ← is, ← cons_append, ← append_assoc, getLast?_append_of_ne_nil _ spent]
    have next : (glue ++ joined parts).head?.any isSeparator = glue.head?.any isSeparator := by
      cases glue with
      | nil => exact head
      | cons c more => rfl
    rw [dropWhile_append, if_neg (by simpa using spent), scan_cut _ _ spent first (by rw [last, next]; exact cut),
      dropWhile_append_separators all, kept, scan_joined clean]

section

variable {d : Bytes} {names : List Bytes}

theorem splitNormalizedComponents_text (isDrive : IsDrive d) (clean : ∀ s ∈ names, Clean s) :
    splitNormalizedComponents (text d true names) = names := by
  unfold splitNormalizedComponents
  rcases isDrive with rfl | ⟨letter, alpha, rfl⟩
  · have driveless : isDrivePrefix (text [] true names) = false := by
      cases whole : joined names <;> simp [text, whole, isDrivePrefix, isAlpha]
    have rest : (text [] true names).drop 1 = joined names := rfl
    have first : ((text [] true names).head?).any isSeparator = true := rfl
    dsimp only
    rw [driveless, first, if_neg (by decide), if_pos rfl, rest, dropWhile_joined clean, scan_joined clean]
  · have prefixed : isDrivePrefix (text [letter, 0x3A] true names) = true := by simp [text, isDrivePrefix, alpha]
    have rest : (text [letter, 0x3A] true names).drop 3 = joined names := rfl
    have third : ((text [letter, 0x3A] true names)[2]?).any isSeparator = true := rfl
    dsimp only
    rw [prefixed, third, if_pos rfl, if_pos rfl, rest, dropWhile_joined clean, scan_joined clean]

theorem text_starts (isDrive : IsDrive d) (names others : List Bytes) :
    isDrivePrefix (text d true names) = isDrivePrefix (text d true others) ∧
      (text d true names).head? = (text d true others).head? := by
  rcases isDrive with rfl | ⟨letter, alpha, rfl⟩
  · have driveless (names : List Bytes) : isDrivePrefix (text [] true names) = false := by
      cases whole : joined names <;> simp [text, whole, isDrivePrefix, isAlpha]
    exact ⟨(driveless names).trans (driveless others).symm, rfl⟩
  · exact ⟨rfl, rfl⟩

theorem commonLength_take (lhs rhs : List Bytes) :
    commonLength lhs rhs ≤ rhs.length ∧ lhs.take (commonLength lhs rhs) = rhs.take (commonLength lhs rhs) := by
  induction lhs generalizing rhs with
  | nil => simp [commonLength]
  | cons l lhs ih =>
    cases rhs with
    | nil => simp [commonLength]
    | cons r rhs =>
      rw [commonLength]
      split
      · rename_i same
        have := ih rhs
        rw [same, take_succ_cons, this.2]
        exact ⟨Nat.succ_le_succ this.1, rfl⟩
      · simp

theorem Location.follow_leaves (ups count : Nat) (names : List Bytes) (enough : count ≤ names.length) :
    (⟨ups, names⟩ : Location).follow (replicate count dotDot) = ⟨ups, names.take (names.length - count)⟩ := by
  induction count generalizing names with
  | zero => simp [follow]
  | succ count ih =>
    have some_ : names ≠ [] := by
      rintro rfl
      simp at enough
    have back : (⟨ups, names⟩ : Location).enter dotDot = ⟨ups, names.dropLast⟩ := by
      simp [enter, some_, dotDot, dot]
    have length : names.dropLast.length = names.length - 1 := length_dropLast
    show ((⟨ups, names⟩ : Location).enter dotDot).follow _ = _
    rw [back, ih _ (by omega), length, dropLast_eq_take, take_take]
    congr 2
    omega

theorem join_normal {base : Path} (absolute : base.isAbsolute = true) {parts : List Bytes} (clean : ∀ s ∈ parts, Clean s) :
    (base.join (joined parts)).lexicallyNormal =
      ⟨text (drive base.view) true ((location base.view).follow parts).names⟩ := by
  obtain ⟨drive_, rooted_, segments_⟩ := join_segments absolute clean
  have there : location (base.join (joined parts)).view = (location base.view).follow parts := by
    rw [location, segments_, follow, foldl_append]
    rfl
  rw [lexicallyNormal_eq, drive_, rooted_, there]
  rfl

theorem normal_of_absolute {path : Path} (absolute : path.isAbsolute = true) :
    path.lexicallyNormal = ⟨text (drive path.view) true (location path.view).names⟩ := by
  have rooted_ := (isAbsolute_eq path).symm.trans absolute
  rw [lexicallyNormal_eq, rooted_]
  rfl

/-- The parts of the relative path: up from the base as far as the two have nothing in common, and down again. -/
def route (lhs rhs : List Bytes) : List Bytes :=
  replicate (rhs.length - commonLength lhs rhs) dotDot ++ lhs.drop (commonLength lhs rhs)

theorem lexicallyRelativeTo_eq {path base : Path} (absolute : path.isAbsolute = true) (absolute' : base.isAbsolute = true)
    (same : drive path.view = drive base.view) : path.lexicallyRelativeTo base =
      let parts := route (location path.view).names (location base.view).names
      ⟨if parts = [] then dot else joined parts⟩ := by
  have isDrive := drive_isDrive base.view
  have clean : ∀ s ∈ (location path.view).names, Clean s := stack_clean true (location_named path.view)
  have clean' : ∀ s ∈ (location base.view).names, Clean s := stack_clean true (location_named base.view)
  have root (names : List Bytes) (clean : ∀ s ∈ names, Clean s) :
      (⟨text (drive base.view) true names⟩ : Path).isAbsolute = true :=
    (isAbsolute_eq _).trans (rooted_text isDrive clean plain_rooted)
  obtain ⟨drives, heads⟩ := text_starts isDrive (location path.view).names (location base.view).names
  unfold lexicallyRelativeTo
  rw [normal_of_absolute absolute, normal_of_absolute absolute', same]
  dsimp only
  rw [root _ clean, root _ clean', drives, heads, if_neg (by simp), if_neg (by simp), if_neg (by simp),
    splitNormalizedComponents_text isDrive clean, splitNormalizedComponents_text isDrive clean']
  rfl

/-- A relative path leads from its base to the path it was made from. -/
theorem join_lexicallyRelativeTo (path base : Path) (absolute : path.isAbsolute = true) (absolute' : base.isAbsolute = true)
    (same : drive path.view = drive base.view) :
    (base.join (path.lexicallyRelativeTo base).view).lexicallyNormal = path.lexicallyNormal := by
  have named := location_named path.view
  have clean : ∀ s ∈ (location path.view).names, Clean s := stack_clean true named
  obtain ⟨least, agree⟩ := commonLength_take (location path.view).names (location base.view).names
  have tidy : ∀ s ∈ route (location path.view).names (location base.view).names, Clean s := by
    intro s mem
    rcases mem_append.mp mem with mem | mem
    · rw [eq_of_mem_replicate mem]
      exact ⟨by decide, by simp [dotDot, isSeparator]⟩
    · exact clean s (mem_of_mem_drop mem)
  have ahead : (⟨0, (location path.view).names.drop
      (commonLength (location path.view).names (location base.view).names)⟩ : Location).Named :=
    fun s mem => named s (mem_of_mem_drop mem)
  have down := follow_names ahead
  have back : ((location base.view).follow (route (location path.view).names (location base.view).names)).names =
      (location path.view).names := by
    have left : (location base.view).names.length -
        ((location base.view).names.length - commonLength (location path.view).names (location base.view).names) =
        commonLength (location path.view).names (location base.view).names := by omega
    have up := follow_leaves (location base.view).ups
      ((location base.view).names.length - commonLength (location path.view).names (location base.view).names)
      (location base.view).names (Nat.sub_le _ _)
    rw [follow, route, foldl_append]
    unfold follow at up down
    rw [up, down, left, ← agree]
    exact take_append_drop _ _
  rw [lexicallyRelativeTo_eq absolute absolute' same, normal_of_absolute absolute, same]
  dsimp only
  by_cases here : route (location path.view).names (location base.view).names = []
  · -- the relative path is a dot
    have stays : (location base.view).follow [dot] = location base.view := rfl
    have tidy' : ∀ s ∈ [dot], Clean s := by simp [Clean, dot, isSeparator]
    have read : dot = joined [dot] := rfl
    rw [here] at back
    rw [if_pos here, read, join_normal absolute' tidy']
    exact congrArg (fun names => Path.mk (text _ true names)) back
  · rw [if_neg here, join_normal absolute' tidy, back]

theorem join_lexicallyRelativeTo_across : let path : Path := ⟨[0x2F, 0x61, 0x2F, 0x2E, 0x2F, 0x62]⟩
    let base : Path := ⟨[0x2F, 0x63, 0x2F]⟩
    (base.join (path.lexicallyRelativeTo base).view).lexicallyNormal = path.lexicallyNormal :=
  join_lexicallyRelativeTo ⟨[0x2F, 0x61, 0x2F, 0x2E, 0x2F, 0x62]⟩ ⟨[0x2F, 0x63, 0x2F]⟩ (by decide) (by decide) (by decide)

end

end NginBase.IO.Path
