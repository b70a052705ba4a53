import NginBase.IO.PathJoin
import NginBase.IO.VirtualFileSystem

namespace NginBase.IO.Path

open List Location

variable {d : Bytes} {absolute : Bool} {parts : List Bytes}

theorem startsWith_text (clean : ∀ s ∈ parts, Clean s) (firm : Firm absolute parts) (more : List Bytes) :
    (⟨text d absolute (parts ++ more)⟩ : Path).startsWith ⟨text d absolute parts⟩ = true := by
  unfold startsWith
  cases parts with
  | nil =>
    have rooted : absolute = true := firm.resolve_right fun none => none rfl
    subst rooted
    simp [text, joined, isSeparator]
  | cons segment rest =>
    have whole : text d absolute (segment :: rest ++ more) = text d absolute (segment :: rest) ++ more.flatMap (0x2F :: ·) := by
      unfold text
      rw [joined_append]
      simp only [append_assoc]
    rw [whole]
    cases more with
    | nil => simp
    | cons next others => simp [isSeparator]

theorem startsWith_parts {all : List Bytes} (clean : ∀ s ∈ parts, Clean s) (tidy : ∀ s ∈ all, Clean s)
    (starts : (⟨text d absolute all⟩ : Path).startsWith ⟨text d absolute parts⟩ = true) : ∃ more, all = parts ++ more := by
  cases parts with
  | nil => exact ⟨all, rfl⟩
  | cons segment rest =>
    have started : text d absolute (segment :: rest) ≠ [] := by simp [text, joined, (clean segment (by simp)).1]
    have last : ((text d absolute (segment :: rest)).getLast?).any isSeparator = false := joined_last segment rest clean _
    have filled : (text d absolute (segment :: rest)).isEmpty = false := by simpa using started
    simp only [startsWith, filled, last, Bool.false_or, Bool.or_false, Bool.and_eq_true, Bool.or_eq_true]
      at starts
    obtain ⟨starting, boundary⟩ := starts
    obtain ⟨tail, whole⟩ := isPrefixOf_iff_prefix.mp starting
    have body : joined all = joined (segment :: rest) ++ tail := by
      unfold text at whole
      rw [append_assoc] at whole
      exact (append_cancel_left whole).symm
    cases tail with
    | nil =>
      refine ⟨[], ?_⟩
      rw [← scan_joined tidy, body, append_nil, scan_joined clean, append_nil]
    | cons c after =>
      have separator : isSeparator c = true := by
        rcases boundary with same | next
        · rw [← whole] at same
          simp at same
        · rw [← whole] at next
          simpa using next
      refine ⟨scan (after.dropWhile isSeparator), ?_⟩
      rw [← scan_joined tidy, body, scan_append segment rest clean separator after]

/-- The root, or the root with components after it of which none is `..`. -/
def Within (root out : Path) : Prop :=
  ∃ names : List Bytes, (∀ name ∈ names, Clean name ∧ name ≠ dotDot) ∧ out = root.join (joined names)

namespace Location

theorem follow_shift (count : Nat) (location : Location) (segments : List Bytes) :
    ({ location with ups := count + location.ups } : Location).follow segments =
      { location.follow segments with ups := count + (location.follow segments).ups } := by
  induction segments generalizing location with
  | nil => rfl
  | cons segment rest ih =>
    have step : ({ location with ups := count + location.ups } : Location).enter segment =
        { location.enter segment with ups := count + (location.enter segment).ups } := by
      unfold enter
      repeat' split
      all_goals rfl
    show (enter _ segment).follow rest = _
    rw [step, ih]
    rfl

theorem follow_climb (count : Nat) (segments : List Bytes) :
    (⟨0, []⟩ : Location).follow (replicate count dotDot ++ segments) =
      ⟨count + ((⟨0, []⟩ : Location).follow segments).ups, ((⟨0, []⟩ : Location).follow segments).names⟩ := by
  unfold follow
  rw [foldl_append]
  have up := follow_ups count 0
  unfold follow at up
  rw [up]
  have shifted := follow_shift count ⟨0, []⟩ segments
  rw [Nat.zero_add]
  exact shifted

end Location

theorem dotDot_mem_rest {ups : Nat} {names more : List Bytes} (without : dotDot ∉ names)
    (split : replicate ups dotDot ++ names = parts ++ more) (mem : dotDot ∈ more) :
    parts = replicate parts.length dotDot ∧ parts.length < ups := by
  rcases append_eq_append_iff.mp split with ⟨between, ahead, behind⟩ | ⟨between, ahead, behind⟩
  · rw [behind] at without
    exact absurd (mem_append_right _ mem) without
  have length := congrArg length ahead
  rw [length_replicate, length_append] at length
  have all : parts = replicate parts.length dotDot := by
    apply eq_replicate_of_mem
    intro s inside
    have : s ∈ replicate ups dotDot := by rw [ahead]; exact mem_append_left _ inside
    exact eq_of_mem_replicate this
  refine ⟨all, ?_⟩
  cases between with
  | nil =>
    rw [behind] at mem
    exact absurd mem without
  | cons s others => simp only [length_cons] at length; omega

def ClimbsOn (absolute : Bool) (parts : List Bytes) (rest : Bytes) : Prop :=
  absolute = false ∧ (∀ s ∈ parts, s = dotDot) ∧ 0 < ((⟨0, []⟩ : Location).follow (scan rest)).ups

theorem join_within (isDrive : IsDrive d) (clean : ∀ s ∈ parts, Clean s) (plain : Plain d absolute parts)
    (firm : Firm absolute parts) (rest : Bytes) (head : rest.head?.any isSeparator = false) :
    let root : Path := ⟨text d absolute parts⟩
    let out := (root.join rest).lexicallyNormal
    (out.startsWith root = true → Within root out ∧ out.isAbsolute = root.isAbsolute) ↔ ¬ClimbsOn absolute parts rest := by
  intro root out
  obtain ⟨drive', rooted', segments'⟩ := join_reads isDrive clean plain firm rest head
  let place := (⟨0, []⟩ : Location).follow (parts ++ scan rest)
  have written : out = ⟨text d absolute (place.stack absolute)⟩ := by
    show (root.join rest).lexicallyNormal = _
    rw [lexicallyNormal_eq, drive', rooted', location, segments']
  have named : place.Named := by
    apply Location.Named.empty.follow
    intro s mem
    rcases mem_append.mp mem with mem | mem
    · exact clean s mem
    · exact scan_clean rest head s mem
  have tidy := stack_clean absolute named
  have root_absolute : root.isAbsolute = absolute := (isAbsolute_eq root).trans (rooted_text isDrive clean plain)
  constructor
  · rintro contained ⟨relative, up, climbs⟩
    subst relative
    have all : parts = replicate parts.length dotDot := eq_replicate_of_mem up
    have split : place.stack false = parts ++
        (replicate ((⟨0, []⟩ : Location).follow (scan rest)).ups dotDot ++
          ((⟨0, []⟩ : Location).follow (scan rest)).names) := by
      have there : place = _ := congrArg ((⟨0, []⟩ : Location).follow <| · ++ scan rest) all
      rw [there, follow_climb]
      simp only [stack, Bool.false_eq_true, if_false]
      rw [replicate_add, append_assoc, ← all]
    have starts : out.startsWith root = true := by
      rw [written, split]
      exact startsWith_text clean firm _
    obtain ⟨⟨names, allowed, is⟩, -⟩ := contained starts
    have same : text d false (parts ++ names) = text d false (place.stack false) := by
      rw [join_joined isDrive clean firm names fun s mem => (allowed s mem).1, written] at is
      exact (congrArg Path.view is).symm
    have bothClean : ∀ s ∈ parts ++ names, Clean s := by
      intro s mem
      rcases mem_append.mp mem with mem | mem
      · exact clean s mem
      · exact (allowed s mem).1
    have equal : parts ++ names = place.stack false := by
      have read := segments_text isDrive bothClean (firm.plain_append plain)
      rw [same] at read
      rw [← read]
      apply segments_text isDrive tidy
      rw [split]
      exact firm.plain_append plain
    rw [split] at equal
    have names_eq := append_cancel_left equal
    have : dotDot ∈ names := by
      rw [names_eq]
      exact mem_append_left _ (mem_replicate.mpr ⟨by omega, rfl⟩)
    exact (allowed _ this).2 rfl
  · intro settled starts
    rw [written] at starts
    obtain ⟨more, split⟩ := startsWith_parts clean tidy starts
    have without : dotDot ∉ more := by
      intro mem
      cases absolute with
      | true =>
        have : dotDot ∈ place.names := by
          show dotDot ∈ place.stack true
          rw [split]
          exact mem_append_right _ mem
        exact named.dotDot_notMem this
      | false =>
        obtain ⟨all, longer⟩ := dotDot_mem_rest named.dotDot_notMem split mem
        refine settled ⟨rfl, fun s inside => eq_of_mem_replicate (by rwa [← all]), ?_⟩
        have there : place = _ := congrArg ((⟨0, []⟩ : Location).follow <| · ++ scan rest) all
        rw [follow_climb] at there
        have ups := congrArg ups there
        dsimp only at ups
        omega
    have tidy' : ∀ s ∈ more, Clean s := fun s mem => tidy s (by rw [split]; exact mem_append_right _ mem)
    constructor
    · refine ⟨more, fun s mem => ⟨tidy' s mem, fun is => without (is ▸ mem)⟩, ?_⟩
      rw [written, split]
      exact (join_joined isDrive clean firm more tidy').symm
    · rw [root_absolute, isAbsolute_eq, written]
      apply rooted_text isDrive tidy
      rw [split]
      exact firm.plain_append plain

section

theorem join_here (segment : Bytes) : (⟨[]⟩ : Path).join segment = ⟨segment⟩ := by
  unfold join
  split
  · rename_i empty
    rw [empty]
  · rfl

theorem within_here (clean : ∀ s ∈ parts, Clean s) : Within ⟨[]⟩ ⟨joined parts⟩ ↔ dotDot ∉ parts := by
  constructor
  · intro ⟨names, allowed, is⟩ mem
    rw [join_here] at is
    have same : parts = names := by
      rw [← scan_joined clean, ← scan_joined fun s mem => (allowed s mem).1]
      exact congrArg (scan ·.view) is
    exact (allowed _ (same ▸ mem)).2 rfl
  · intro without
    exact ⟨parts, fun s mem => ⟨clean s mem, fun is => without (is ▸ mem)⟩, by rw [join_here]⟩

def Leaves (rest : Bytes) : Prop :=
  rooted rest = true ∨ (if drive rest = [] then 0 else 1) < (location rest).ups ∨
    drive rest = [] ∧ ∃ letter name names, isAlpha letter = true ∧ (location rest).names = [letter, 0x3A] :: name :: names

variable {place : Location}

theorem drive_within {letter : UInt8} (alpha : isAlpha letter = true) (named : place.Named) :
    (Within ⟨[]⟩ ⟨text [letter, 0x3A] false (place.stack false)⟩ ∧
      (⟨text [letter, 0x3A] false (place.stack false)⟩ : Path).isAbsolute = false) ↔ ¬1 < place.ups := by
  have clean := stack_clean false named
  have relative : (⟨text [letter, 0x3A] false (place.stack false)⟩ : Path).isAbsolute = false :=
    (isAbsolute_eq _).trans (rooted_text (.inr ⟨letter, alpha, rfl⟩) clean plain_of_drive)
  have colon : isSeparator 0x3A = false := by decide
  have plainLetter := separator_letter alpha
  obtain ⟨ups, names⟩ := place
  rw [and_iff_left relative]
  cases stacked : (⟨ups, names⟩ : Location).stack false with
  | nil =>
    have level : ups = 0 := by
      have := congrArg length stacked
      simp only [stack, Bool.false_eq_true, if_false, length_append, length_replicate, length_nil]
        at this
      omega
    have whole : text [letter, 0x3A] false [] = joined [[letter, 0x3A]] := by simp [text, joined]
    rw [whole, within_here (by simpa [Clean] using ⟨plainLetter, colon⟩)]
    refine iff_of_true (by simp [dotDot]) ?_
    show ¬1 < ups
    omega
  | cons first others =>
    rw [stacked] at clean
    have whole : text [letter, 0x3A] false (first :: others) = joined ((letter :: 0x3A :: first) :: others) := by
      simp [text, joined]
    have glued : Clean (letter :: 0x3A :: first) := by
      refine ⟨by simp, ?_⟩
      intro c mem
      rcases mem_cons.mp mem with rfl | mem
      · exact plainLetter
      rcases mem_cons.mp mem with rfl | mem
      · exact colon
      · exact (clean first (by simp)).2 c mem
    have tidy : ∀ s ∈ (letter :: 0x3A :: first) :: others, Clean s := by
      intro s mem
      rcases mem_cons.mp mem with rfl | mem
      · exact glued
      · exact clean s (mem_cons_of_mem _ mem)
    rw [whole, within_here tidy, not_iff_not, mem_cons, or_iff_right (by simp [dotDot])]
    constructor
    · intro mem
      have split : replicate ups dotDot ++ names = [first] ++ others := stacked
      exact (dotDot_mem_rest named.dotDot_notMem split mem).2
    · intro climbs
      have climbs : 1 < ups := climbs
      obtain ⟨more, rfl⟩ : ∃ more, ups = more + 2 := ⟨ups - 2, by omega⟩
      simp only [stack, Bool.false_eq_true, if_false, replicate_succ, cons_append, cons.injEq]
        at stacked
      rw [← stacked.2]
      exact mem_cons_self ..

theorem driveless_within (named : place.Named) :
    (Within ⟨[]⟩ ⟨text [] false (place.stack false)⟩ ∧ (⟨text [] false (place.stack false)⟩ : Path).isAbsolute = false) ↔
      ¬(0 < place.ups ∨ ∃ letter name names, isAlpha letter = true ∧ place.names = [letter, 0x3A] :: name :: names) := by
  have clean := stack_clean false named
  have within : Within ⟨[]⟩ ⟨text [] false (place.stack false)⟩ ↔ dotDot ∉ place.stack false := within_here clean
  rw [within]
  by_cases climbs : 0 < place.ups
  · refine iff_of_false ?_ fun settled => settled (.inl climbs)
    rintro ⟨without, _⟩
    exact without (mem_append_left _ (mem_replicate.mpr ⟨by omega, rfl⟩))
  obtain ⟨ups, names⟩ := place
  obtain rfl : ups = 0 := by
    dsimp only at climbs
    omega
  have stacked : (⟨0, names⟩ : Location).stack false = names := rfl
  rw [stacked] at clean ⊢
  rw [and_iff_right named.dotDot_notMem, or_iff_right climbs, isAbsolute_eq]
  by_cases plain : Plain [] false names
  · refine iff_of_true (rooted_text (.inl rfl) clean plain) ?_
    rintro ⟨letter, name, others, alpha, is⟩
    dsimp only at is
    have := plain rfl rfl [letter, 0x3A] (by rw [is]; rfl)
    simp [isDrivePrefix, alpha] at this
  · obtain ⟨-, -, letter, rest, others, alpha, rfl⟩ := segments_of_not_plain plain
    have isDrive : IsDrive [letter, 0x3A] := .inr ⟨letter, alpha, rfl⟩
    have tail : ∀ s ∈ others, Clean s := fun s mem => clean s (mem_cons_of_mem _ mem)
    by_cases bare : rest = []
    · subst bare
      cases others with
      | nil =>
        have whole : text [] false [[letter, 0x3A]] = text [letter, 0x3A] false [] := by simp [text, joined]
        rw [whole, rooted_text isDrive tail plain_of_drive]
        refine iff_of_true rfl ?_
        rintro ⟨_, _, _, _, is⟩
        simp at is
      | cons name more =>
        rw [text_drive_root (by simp), rooted_text isDrive tail plain_of_drive]
        exact iff_of_false (by decide) fun settled => settled ⟨letter, name, more, alpha, rfl⟩
    · rw [text_drive_name, rooted_text isDrive (clean_afterDrive clean bare) plain_of_drive]
      refine iff_of_true rfl ?_
      rintro ⟨_, _, _, _, is⟩
      simp [bare] at is

theorem here_within (rest : Bytes) :
    (Within ⟨[]⟩ (⟨rest⟩ : Path).lexicallyNormal ∧ (⟨rest⟩ : Path).lexicallyNormal.isAbsolute = false) ↔ ¬Leaves rest := by
  have named := location_named rest
  have isDrive := drive_isDrive rest
  rw [lexicallyNormal_eq]
  unfold Leaves
  cases rooted' : rooted rest with
  | true =>
    refine iff_of_false ?_ fun settled => settled (.inl rfl)
    intro ⟨_, relative⟩
    rw [isAbsolute_eq] at relative
    have plain : Plain (drive rest) true ((location rest).stack true) := fun _ impossible => by cases impossible
    have absolute := rooted_text isDrive (stack_clean true named) plain
    rw [absolute] at relative
    cases relative
  | false =>
    rcases isDrive with none | ⟨letter, alpha, is⟩
    · rw [none, driveless_within named]
      simp
    · rw [is, drive_within alpha named]
      simp

end

end NginBase.IO.Path

namespace NginBase.IO.LocalMount

open Path

/-- What is left of the normal form of a virtual path behind the prefix of the mount. -/
def remainder (mount : LocalMount) (virtualPath : Path) : Bytes :=
  (virtualPath.lexicallyNormal.view.drop mount.mountPoint.virtualPrefix.view.length).dropWhile isSeparator

def Escapes (root : Path) (rest : Bytes) : Prop :=
  (root.view = [] ∧ Leaves rest) ∨
  ((∃ letter, isAlpha letter = true ∧ root.view = [letter, 0x3A]) ∧ rest ≠ []) ∨
  (segments root.view ≠ [] ∧ ClimbsOn (rooted root.view) (segments root.view) rest)

theorem remainder_head (mount : LocalMount) (virtualPath : Path) :
    (mount.remainder virtualPath).head?.any isSeparator = false := by
  have := List.head?_dropWhile_not isSeparator
    (virtualPath.lexicallyNormal.view.drop mount.mountPoint.virtualPrefix.view.length)
  unfold remainder
  cases left : (virtualPath.lexicallyNormal.view.drop mount.mountPoint.virtualPrefix.view.length).dropWhile isSeparator with
  | nil => rfl
  | cons c rest =>
    rw [left] at this
    simpa using this

theorem translate_ok {mount : LocalMount} {virtualPath out : Path} :
    mount.translate virtualPath = .ok out ↔ mount.canResolve virtualPath = true ∧
      out = (mount.realRoot.join (mount.remainder virtualPath)).lexicallyNormal ∧ out.startsWith mount.realRoot = true := by
  unfold translate canResolve remainder
  dsimp only
  split
  · rename_i unmatched
    simp only [reduceCtorEq, false_iff]
    intro matched
    simp [matched] at unmatched
  · rename_i matched
    split
    · rename_i outside
      simp only [reduceCtorEq, false_iff, not_and]
      intro _ is
      rw [is]
      simpa using outside
    · rename_i inside
      constructor
      · intro is
        cases is
        exact ⟨by simpa using matched, rfl, by simpa using inside⟩
      · intro ⟨_, is, _⟩
        rw [is]

def Contained (mount : LocalMount) (virtualPath : Path) : Prop :=
  ∀ out, mount.translate virtualPath = .ok out →
    Within mount.realRoot out ∧ out.isAbsolute = mount.realRoot.isAbsolute

theorem contained_iff (mount : LocalMount) (virtualPath : Path) : mount.Contained virtualPath ↔
      (mount.canResolve virtualPath = true →
        let out := (mount.realRoot.join (mount.remainder virtualPath)).lexicallyNormal
        out.startsWith mount.realRoot = true →
          Within mount.realRoot out ∧ out.isAbsolute = mount.realRoot.isAbsolute) := by
  constructor
  · intro contained resolves out starts
    exact contained out (translate_ok.mpr ⟨resolves, rfl, starts⟩)
  · intro contained out ok
    obtain ⟨resolves, rfl, starts⟩ := translate_ok.mp ok
    exact contained resolves starts

theorem bareDrive_contained {letter : UInt8} (alpha : isAlpha letter = true) (rest : Bytes)
    (head : rest.head?.any isSeparator = false) : let root : Path := ⟨[letter, 0x3A]⟩
    let out := (root.join rest).lexicallyNormal
    (out.startsWith root = true → Within root out ∧ out.isAbsolute = root.isAbsolute) ↔ ¬rest ≠ [] := by
  intro root out
  have isDrive : IsDrive [letter, 0x3A] := .inr ⟨letter, alpha, rfl⟩
  have nothing : ∀ s ∈ ([] : List Bytes), Clean s := by simp
  have relative : root.isAbsolute = false := by
    have read : rooted (text [letter, 0x3A] false []) = false := rooted_text isDrive nothing plain_of_drive
    rw [isAbsolute_eq]
    simpa [text, joined] using read
  cases rest with
  | nil =>
    have same : out = root := by
      have normal : (⟨text [letter, 0x3A] false ((⟨0, []⟩ : Location).stack false)⟩ : Path).lexicallyNormal = _ :=
        normal_of_plain isDrive Location.Named.empty plain_of_drive
      show (⟨[letter, 0x3A]⟩ : Path).lexicallyNormal = ⟨[letter, 0x3A]⟩
      simpa [text, joined, Location.stack] using normal
    refine iff_of_true ?_ (by simp)
    intro _
    rw [same]
    exact ⟨⟨[], by simp, rfl⟩, rfl⟩
  | cons c more =>
    have whole : (root.join (c :: more)).view = [letter, 0x3A] ++ (if true then [0x2F] else []) ++ c :: more := by
      simp [root, join, isSeparator]
    have plain : [letter, 0x3A] = [] → true = false → isDrivePrefix (c :: more) = false := fun none => by cases none
    have written : out = ⟨text [letter, 0x3A] true ((location (root.join (c :: more)).view).stack true)⟩ := by
      show (root.join (c :: more)).lexicallyNormal = _
      rw [lexicallyNormal_eq, whole, drive_body isDrive plain, rooted_body isDrive plain head]
    refine iff_of_false ?_ (by simp)
    intro contained
    have starts : out.startsWith root = true := by
      rw [written]
      simp [startsWith, text, root, isSeparator]
    have absolute := (contained starts).2
    rw [relative, isAbsolute_eq, written] at absolute
    rw [rooted_text isDrive (Location.stack_clean true (location_named _)) plain_of_drive] at absolute
    cases absolute

/-- What `Translate` returns stays within the real root unless the path matches the mount and its remainder escapes:
    the root is empty and the remainder is absolute, or becomes so, or climbs; the root is a drive alone and there is a
    remainder; or the root is a relative path of `..` only and the remainder climbs. -/
theorem translate_contained (realRoot : Path) (mountPoint : MountPoint) (virtualPath : Path) :
    let mount := LocalMount.make realRoot mountPoint
    mount.Contained virtualPath ↔
      ¬(mount.canResolve virtualPath = true ∧ Escapes mount.realRoot (mount.remainder virtualPath)) := by
  intro mount
  have head := remainder_head mount virtualPath
  have written : mount.realRoot = ⟨_⟩ := lexicallyNormal_eq realRoot
  obtain ⟨d, absolute, parts, is, isDrive, clean, plain⟩ : ∃ d absolute parts,
      text (drive realRoot.view) (rooted realRoot.view) ((location realRoot.view).stack (rooted realRoot.view)) =
        text d absolute parts ∧ _ :=
    text_reads (drive_isDrive realRoot.view)
      (Location.stack_clean (rooted realRoot.view) (location_named realRoot.view))
  rw [is] at written
  rw [contained_iff, not_and]
  apply imp_congr_right
  intro resolves
  rw [written]
  unfold Escapes
  rw [rooted_text isDrive clean plain, segments_text isDrive clean plain]
  by_cases firm : Firm absolute parts
  · have unequal (d' : Bytes) (isDrive' : IsDrive d') : text d absolute parts ≠ d' := by
      intro same
      have written' : text d absolute parts = text d' false [] := by
        rw [same]
        simp [text, joined]
      have nothing : ∀ s ∈ ([] : List Bytes), Clean s := by simp
      have plain' : Plain d' false [] := fun _ _ segment first => by cases first
      have root := rooted_text isDrive clean plain
      have read := segments_text isDrive clean plain
      rw [written', rooted_text isDrive' nothing plain'] at root
      rw [written', segments_text isDrive' nothing plain'] at read
      rcases firm with rooted | some_
      · rw [rooted] at root
        cases root
      · exact some_ read.symm
    refine (join_within isDrive clean plain firm _ head).trans (not_congr ?_)
    constructor
    · intro climbs
      refine .inr (.inr ⟨?_, climbs⟩)
      rcases firm with rooted | some_
      · rw [climbs.1] at rooted
        cases rooted
      · exact some_
    · intro escapes
      rcases escapes with ⟨empty, -⟩ | ⟨⟨letter, alpha, bare⟩, -⟩ | ⟨-, climbs⟩
      · exact absurd empty (unequal [] (.inl rfl))
      · exact absurd bare (unequal [letter, 0x3A] (.inr ⟨letter, alpha, rfl⟩))
      · exact climbs
  · simp only [Firm, not_or, Bool.not_eq_true, not_not] at firm
    obtain ⟨rfl, rfl⟩ := firm
    have bare : text d false [] = d := by simp [text, joined]
    rw [bare]
    rcases isDrive with rfl | ⟨letter, alpha, rfl⟩
    · have here := here_within (mount.remainder virtualPath)
      rw [join_here]
      have starts : ((⟨mount.remainder virtualPath⟩ : Path).lexicallyNormal).startsWith ⟨[]⟩ = true := rfl
      rw [imp_iff_right starts]
      refine here.trans (not_congr ?_)
      simp
    · refine (bareDrive_contained alpha _ head).trans (not_congr ?_)
      simp [alpha]

theorem translate_escapes : ¬∀ (realRoot : Path) (mountPoint : MountPoint) (virtualPath : Path),
    (LocalMount.make realRoot mountPoint).Contained virtualPath := by
  intro all
  have contained := all ⟨[0x2E]⟩ {} ⟨[0x2F, 0x43, 0x3A, 0x2F, 0x78]⟩ ⟨[0x43, 0x3A, 0x2F, 0x78]⟩ (by decide +kernel)
  have absolute := contained.2
  revert absolute
  decide +kernel

end NginBase.IO.LocalMount
