import NginBase.IO.PathNormal

namespace NginBase.IO.Path

open List

variable {d : Bytes} {absolute : Bool} {parts : List Bytes}

def scan (body : Bytes) : List Bytes := scanSegments body.length body

theorem scan_joined (clean : ∀ s ∈ parts, Clean s) : scan (joined parts) = parts :=
  scanSegments_joined parts clean _ (Nat.le_refl _)

theorem scan_clean (body : Bytes) (head : body.head?.any isSeparator = false) : ∀ s ∈ scan body, Clean s :=
  scanSegments_clean _ body head

theorem joined_append (segment : Bytes) (rest parts : List Bytes) :
    joined (segment :: rest ++ parts) = joined (segment :: rest) ++ parts.flatMap (0x2F :: ·) := by
  simp [joined]

theorem scan_segment {segment after : Bytes} (clean : Clean segment) (ends : after.head?.all isSeparator) :
    scan (segment ++ after) = segment :: scan (after.dropWhile isSeparator) := by
  obtain ⟨c, more, rfl⟩ := exists_cons_of_ne_nil clean.1
  obtain ⟨taken, left⟩ := takeWhile_segment clean ends
  have shorter : (after.dropWhile isSeparator).length ≤ (more ++ after).length :=
    Nat.le_trans (length_dropWhile_le _ _) (by simp)
  show ((c :: more) ++ after).takeWhile (!isSeparator ·) ::
    scanSegments (more ++ after).length ((((c :: more) ++ after).dropWhile (!isSeparator ·)).dropWhile isSeparator) = _
  rw [taken, left, scan, scanSegments_fuel _ _ _ shorter (Nat.le_refl _)]

section

variable (segment : Bytes) (rest : List Bytes) (clean : ∀ s ∈ segment :: rest, Clean s)

include segment rest clean

theorem scan_append {c : UInt8} (separator : isSeparator c = true) (tail : Bytes) :
    scan (joined (segment :: rest) ++ c :: tail) = segment :: rest ++ scan (tail.dropWhile isSeparator) := by
  induction rest generalizing segment with
  | nil =>
    have whole : joined [segment] ++ c :: tail = segment ++ c :: tail := by simp [joined]
    rw [whole, scan_segment (clean segment (by simp)) (by simpa using separator), dropWhile_cons_of_pos separator]
    rfl
  | cons next others ih =>
    have tidy : ∀ s ∈ next :: others, Clean s := fun s mem => clean s (mem_cons_of_mem _ mem)
    obtain ⟨e, more, first⟩ := exists_cons_of_ne_nil (tidy next (by simp)).1
    have plain : isSeparator e = false := (tidy next (by simp)).2 e (by simp [first])
    have whole : joined (segment :: next :: others) ++ c :: tail = segment ++ 0x2F :: (joined (next :: others) ++ c :: tail) := by
      simp [joined]
    have body : (0x2F :: (joined (next :: others) ++ c :: tail)).dropWhile isSeparator = joined (next :: others) ++ c :: tail := by
      rw [dropWhile_cons_of_pos (by decide)]
      simp [joined, first, plain]
    rw [whole, scan_segment (clean segment (by simp)) (by simp [isSeparator]), body, ih next tidy]
    rfl

theorem joined_last (before : Bytes) : ((before ++ joined (segment :: rest)).getLast?).any isSeparator = false := by
  have one (segment before : Bytes) (clean : Clean segment) : ((before ++ segment).getLast?).any isSeparator = false := by
    rw [getLast?_append_of_ne_nil _ clean.1]
    cases last : segment.getLast? with
    | none => rfl
    | some c => exact clean.2 c (mem_of_getLast? last)
  induction rest generalizing segment before with
  | nil =>
    simp only [joined, flatMap_nil, append_nil]
    exact one segment before (clean segment (by simp))
  | cons next others ih =>
    have whole : before ++ joined (segment :: next :: others) = (before ++ segment ++ [0x2F]) ++ joined (next :: others) := by
      simp [joined]
    rw [whole]
    exact ih next (fun s mem => clean s (mem_cons_of_mem _ mem)) _

end

theorem text_reads (isDrive : IsDrive d) (clean : ∀ s ∈ parts, Clean s) :
    ∃ d' absolute' parts', text d absolute parts = text d' absolute' parts' ∧ IsDrive d' ∧ (∀ s ∈ parts', Clean s) ∧
      Plain d' absolute' parts' := by
  by_cases plain : Plain d absolute parts
  · exact ⟨d, absolute, parts, rfl, isDrive, clean, plain⟩
  obtain ⟨rfl, rfl, letter, rest, names, alpha, rfl⟩ := segments_of_not_plain plain
  have tail : ∀ s ∈ names, Clean s := fun s mem => clean s (mem_cons_of_mem _ mem)
  have drive' : IsDrive [letter, 0x3A] := .inr ⟨letter, alpha, rfl⟩
  by_cases none : rest = []
  · subst none
    by_cases more : names = []
    · subst more
      exact ⟨[letter, 0x3A], false, [], rfl, drive', tail, plain_of_drive⟩
    · exact ⟨[letter, 0x3A], true, names, text_drive_root more, drive', tail, plain_of_drive⟩
  · exact ⟨[letter, 0x3A], false, rest :: names, text_drive_name, drive', clean_afterDrive clean none, plain_of_drive⟩

/-- A root has segments or is absolute: it is neither empty nor a drive alone. -/
def Firm (absolute : Bool) (parts : List Bytes) : Prop := absolute = true ∨ parts ≠ []

theorem Firm.plain_append {more : List Bytes} (firm : Firm absolute parts) (plain : Plain d absolute parts) :
    Plain d absolute (parts ++ more) := by
  intro none relative segment first
  rcases firm with rooted | some_
  · rw [rooted] at relative
    cases relative
  · obtain ⟨s, rest, rfl⟩ := exists_cons_of_ne_nil some_
    exact plain none relative segment first

theorem join_joined (isDrive : IsDrive d) (clean : ∀ s ∈ parts, Clean s) (firm : Firm absolute parts)
    (more : List Bytes) (tidy : ∀ s ∈ more, Clean s) :
    (⟨text d absolute parts⟩ : Path).join (joined more) = ⟨text d absolute (parts ++ more)⟩ := by
  cases more with
  | nil => simp [join, joined]
  | cons next others =>
    have nonempty : joined (next :: others) ≠ [] := by simp [joined, (tidy next (by simp)).1]
    unfold join
    rw [if_neg nonempty]
    cases parts with
    | nil =>
      have rooted : absolute = true := firm.resolve_right fun none => none rfl
      subst rooted
      simp [text, joined, isSeparator]
    | cons segment rest =>
      have last : ((text d absolute (segment :: rest)).getLast?).any isSeparator = false :=
        joined_last segment rest clean _
      have started : text d absolute (segment :: rest) ≠ [] := by simp [text, joined, (clean segment (by simp)).1]
      rw [if_pos ⟨started, by rw [last]; decide⟩]
      unfold text
      simp [joined]

theorem join_reads (isDrive : IsDrive d) (clean : ∀ s ∈ parts, Clean s) (plain : Plain d absolute parts)
    (firm : Firm absolute parts) (rest : Bytes) (head : rest.head?.any isSeparator = false) :
    let view := ((⟨text d absolute parts⟩ : Path).join rest).view
    drive view = d ∧ rooted view = absolute ∧ segments view = parts ++ scan rest := by
  intro view
  cases rest with
  | nil =>
    have same : view = text d absolute parts := rfl
    rw [same, drive_text isDrive clean plain, rooted_text isDrive clean plain, segments_text isDrive clean plain]
    exact ⟨rfl, rfl, (append_nil parts).symm⟩
  | cons c more =>
    cases parts with
    | nil =>
      have rooted : absolute = true := firm.resolve_right fun none => none rfl
      subst rooted
      have whole : view = d ++ (if true then [0x2F] else []) ++ c :: more := by
        simp [view, join, text, joined, isSeparator]
      have plain' : d = [] → true = false → isDrivePrefix (c :: more) = false := fun _ impossible => by cases impossible
      rw [whole, drive_body isDrive plain', rooted_body isDrive plain' head, segments_body isDrive plain' head]
      exact ⟨rfl, rfl, rfl⟩
    | cons segment others =>
      have last : ((text d absolute (segment :: others)).getLast?).any isSeparator = false :=
        joined_last segment others clean _
      have started : text d absolute (segment :: others) ≠ [] := by simp [text, joined, (clean segment (by simp)).1]
      have whole : view = d ++ (if absolute then [0x2F] else []) ++ (joined (segment :: others) ++ 0x2F :: c :: more) := by
        dsimp only [view, join]
        rw [if_neg (by simp), if_pos ⟨started, by rw [last]; decide⟩]
        simp [text]
      have ends : (others.flatMap (0x2F :: ·) ++ 0x2F :: c :: more).head?.all isSeparator := by
        cases others <;> simp [isSeparator]
      have plain' : d = [] → absolute = false → isDrivePrefix (joined (segment :: others) ++ 0x2F :: c :: more) = false := by
        intro driveless relative
        rw [joined, append_assoc, isDrivePrefix_append (clean segment (by simp)).1 ends]
        exact plain driveless relative segment rfl
      have head' : (joined (segment :: others) ++ 0x2F :: c :: more).head?.any isSeparator = false := by
        have inside := joined_head clean
        obtain ⟨e, rest, first⟩ := exists_cons_of_ne_nil (clean segment (by simp)).1
        simpa [joined, first] using inside
      have dropped : (c :: more).dropWhile isSeparator = c :: more := dropWhile_cons_of_neg (by simpa using head)
      have scanned := scan_append segment others clean (show isSeparator 0x2F = true by decide) (c :: more)
      rw [dropped] at scanned
      rw [whole, drive_body isDrive plain', rooted_body isDrive plain' head', segments_body isDrive plain' head']
      exact ⟨rfl, rfl, scanned⟩

end NginBase.IO.Path
