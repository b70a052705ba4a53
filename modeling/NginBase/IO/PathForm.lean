import NginBase.IO.Path

namespace NginBase.IO.Path

open List

def drive (view : Bytes) : Bytes := if isDrivePrefix view then view.take 2 else []

def rooted (view : Bytes) : Bool := ((view.drop (drive view).length).head?).any isSeparator

def segments (view : Bytes) : List Bytes :=
  let body := (view.drop (drive view).length).dropWhile isSeparator
  scanSegments body.length body

def components (path : Path) : List Bytes :=
  let body := (path.view.drop (drive path.view).length).drop (if rooted path.view then 1 else 0)
  if body = [] then [] else body.splitOnP isSeparator

theorem isAbsolute_eq (path : Path) : path.isAbsolute = rooted path.view := by
  unfold isAbsolute rooted drive
  split
  · rename_i prefixed
    have two : (path.view.take 2).length = 2 := by
      match path.view, prefixed with
      | _ :: _ :: _, _ => rfl
    rw [two, head?_drop]
  · rfl

def Clean (segment : Bytes) : Prop := segment ≠ [] ∧ ∀ c ∈ segment, isSeparator c = false

def joined : List Bytes → Bytes
  | [] => []
  | segment :: rest => segment ++ rest.flatMap (0x2F :: ·)

def text (drive : Bytes) (absolute : Bool) (segments : List Bytes) : Bytes :=
  drive ++ (if absolute then [0x2F] else []) ++ joined segments

theorem Clean.last {segment : Bytes} (clean : Clean segment) (before : Bytes) :
    (before ++ segment).getLast? ≠ some 0x2F := by
  rw [getLast?_append_of_ne_nil _ clean.1]
  intro last
  have := clean.2 0x2F (mem_of_getLast? last)
  exact absurd this (by decide)

theorem appendSegments_rest (absolute : Bool) (i : Nat) (segments : List Bytes) (clean : ∀ s ∈ segments, Clean s)
    (normalized : Bytes) (started : normalized ≠ []) (last : normalized.getLast? ≠ some 0x2F) :
    appendSegments absolute (i + 1) normalized segments = normalized ++ segments.flatMap (0x2F :: ·) := by
  induction segments generalizing i normalized with
  | nil => simp [appendSegments]
  | cons segment rest ih =>
    have head := clean segment (by simp)
    unfold appendSegments
    rw [if_pos ⟨.inl (Nat.succ_pos i), started, last⟩,
      ih (i + 1) (fun s mem => clean s (by simp [mem])) _ (by simp) (head.last _)]
    simp

theorem appendSegments_eq (drive : Bytes) (absolute : Bool) (segments : List Bytes) (clean : ∀ s ∈ segments, Clean s) :
    appendSegments absolute 0 (drive ++ if absolute then [0x2F] else []) segments = text drive absolute segments := by
  cases segments with
  | nil => simp [appendSegments, text, joined]
  | cons segment rest =>
    have head := clean segment (by simp)
    have unseparated : ¬((0 < 0 ∨ absolute = true) ∧ (drive ++ if absolute then [0x2F] else []) ≠ [] ∧
        (drive ++ if absolute then [0x2F] else []).getLast? ≠ some 0x2F) := by
      intro ⟨first, _, last⟩
      have absolute : absolute = true := first.resolve_left (Nat.lt_irrefl 0)
      rw [if_pos absolute] at last
      simp at last
    unfold appendSegments
    rw [if_neg unseparated, appendSegments_rest absolute 0 rest (fun s mem => clean s (by simp [mem])) _
      (by simp [head.1]) (head.last _)]
    simp [text, joined]

theorem takeWhile_segment {segment after : Bytes} (clean : Clean segment) (ends : after.head?.all isSeparator) :
    (segment ++ after).takeWhile (!isSeparator ·) = segment ∧ (segment ++ after).dropWhile (!isSeparator ·) = after := by
  have inside : ∀ c ∈ segment, (!isSeparator c) = true := by
    intro c mem
    simp [clean.2 c mem]
  rw [takeWhile_append_of_pos inside, dropWhile_append_of_pos inside]
  cases after with
  | nil => simp
  | cons c rest =>
    have separator : isSeparator c = true := by simpa using ends
    simp [separator]

theorem joined_head {segments : List Bytes} (clean : ∀ s ∈ segments, Clean s) :
    (joined segments).head?.any isSeparator = false := by
  cases segments with
  | nil => rfl
  | cons segment rest =>
    obtain ⟨nonempty, inside⟩ := clean segment (by simp)
    cases segment with
    | nil => exact absurd rfl nonempty
    | cons c more => simpa [joined] using inside c (by simp)

theorem dropWhile_joined {segments : List Bytes} (clean : ∀ s ∈ segments, Clean s) :
    (joined segments).dropWhile isSeparator = joined segments := by
  have head := joined_head clean
  cases whole : joined segments with
  | nil => rfl
  | cons c rest =>
    rw [whole] at head
    have plain : isSeparator c = false := by simpa using head
    simp [plain]

theorem scanSegments_fuel (fuel fuel' : Nat) (body : Bytes) (enough : body.length ≤ fuel) (enough' : body.length ≤ fuel') :
    scanSegments fuel body = scanSegments fuel' body := by
  induction fuel generalizing fuel' body with
  | zero =>
    rw [length_eq_zero_iff.mp (Nat.le_zero.mp enough)]
    cases fuel' <;> rfl
  | succ fuel ih =>
    cases body with
    | nil => cases fuel' <;> rfl
    | cons c rest =>
      cases fuel' with
      | zero => simp at enough'
      | succ fuel' =>
        have shorter : (((c :: rest).dropWhile (!isSeparator ·)).dropWhile isSeparator).length ≤ rest.length := by
          by_cases separator : isSeparator c = true
          · rw [dropWhile_cons_of_neg (by simp [separator]), dropWhile_cons_of_pos separator]
            exact length_dropWhile_le _ _
          · rw [dropWhile_cons_of_pos (by simpa using separator)]
            exact Nat.le_trans (length_dropWhile_le _ _) (length_dropWhile_le _ _)
        rw [length_cons] at enough enough'
        simp only [scanSegments]
        rw [ih fuel' _ (by omega) (by omega)]

theorem scanSegments_joined (segments : List Bytes) (clean : ∀ s ∈ segments, Clean s) (fuel : Nat)
    (enough : (joined segments).length ≤ fuel) : scanSegments fuel (joined segments) = segments := by
  induction segments generalizing fuel with
  | nil => cases fuel <;> rfl
  | cons segment rest ih =>
    have head := clean segment (by simp)
    have tail : ∀ s ∈ rest, Clean s := fun s mem => clean s (by simp [mem])
    obtain ⟨c, more, rfl⟩ := exists_cons_of_ne_nil head.1
    have ends : (rest.flatMap (0x2F :: ·)).head?.all isSeparator := by
      cases rest <;> simp [isSeparator]
    obtain ⟨taken, left⟩ := takeWhile_segment head ends
    have next : (rest.flatMap (0x2F :: ·)).dropWhile isSeparator = joined rest := by
      cases rest with
      | nil => rfl
      | cons s others =>
        have whole : (s :: others).flatMap (0x2F :: ·) = 0x2F :: joined (s :: others) := by simp [joined]
        exact dropWhile_joined tail
    have shorter : (joined rest).length ≤ (rest.flatMap (0x2F :: ·)).length := by
      cases rest with
      | nil => simp [joined]
      | cons s others => simp [joined]
    cases fuel with
    | zero => simp [joined] at enough
    | succ fuel =>
      simp only [joined, length_append, length_cons] at enough
      show (joined ((c :: more) :: rest)).takeWhile (!isSeparator ·) ::
        scanSegments fuel (((joined ((c :: more) :: rest)).dropWhile (!isSeparator ·)).dropWhile isSeparator) = _
      simp only [joined] at taken left ⊢
      rw [taken, left, next, ih tail fuel (by omega)]

theorem scanSegments_clean (fuel : Nat) (body : Bytes) (head : body.head?.any isSeparator = false) :
    ∀ s ∈ scanSegments fuel body, Clean s := by
  induction fuel generalizing body with
  | zero => simp [scanSegments]
  | succ fuel ih =>
    cases body with
    | nil => simp [scanSegments]
    | cons c rest =>
      have plain : isSeparator c = false := by simpa using head
      intro s mem
      rcases mem_cons.mp mem with rfl | mem
      · refine ⟨by simp [plain], ?_⟩
        intro d inside
        simpa using mem_takeWhile_imp inside
      · apply ih _ _ s mem
        cases left : ((c :: rest).dropWhile (!isSeparator ·)).dropWhile isSeparator with
        | nil => rfl
        | cons d more =>
          have := head?_dropWhile_not isSeparator ((c :: rest).dropWhile (!isSeparator ·))
          rw [left] at this
          simpa using this

theorem segments_clean (view : Bytes) : ∀ s ∈ segments view, Clean s := by
  apply scanSegments_clean
  have := head?_dropWhile_not isSeparator (view.drop (drive view).length)
  cases body : (view.drop (drive view).length).dropWhile isSeparator with
  | nil => rfl
  | cons c rest =>
    rw [body] at this
    simpa using this

section

theorem isDrivePrefix_append {segment after : Bytes} (nonempty : segment ≠ []) (ends : after.head?.all isSeparator) :
    isDrivePrefix (segment ++ after) = isDrivePrefix segment := by
  match segment, nonempty with
  | [c], _ =>
    cases after with
    | nil => rfl
    | cons e rest =>
      have colon : (e == 0x3A) = false := by
        apply beq_false_of_ne
        rintro rfl
        exact absurd ends (by simp [isSeparator])
      simp [isDrivePrefix, colon]
  | c :: e :: more, _ => rfl

def IsDrive (drive : Bytes) : Prop := drive = [] ∨ ∃ letter, isAlpha letter = true ∧ drive = [letter, 0x3A]

theorem separator_letter {letter : UInt8} (alpha : isAlpha letter = true) : isSeparator letter = false := by
  by_contra separator
  simp only [isSeparator, Bool.not_eq_false, Bool.or_eq_true, beq_iff_eq] at separator
  rcases separator with rfl | rfl
  · exact absurd alpha (by decide)
  · exact absurd alpha (by decide)

theorem drive_isDrive (view : Bytes) : IsDrive (drive view) := by
  unfold drive
  split
  · rename_i prefixed
    match view, prefixed with
    | letter :: colon :: rest, prefixed =>
      simp only [isDrivePrefix, Bool.and_eq_true, beq_iff_eq] at prefixed
      exact .inr ⟨letter, prefixed.1, by rw [prefixed.2]; rfl⟩
  · exact .inl rfl

def Plain (drive : Bytes) (absolute : Bool) (segments : List Bytes) : Prop :=
  drive = [] → absolute = false → ∀ segment, segments.head? = some segment → isDrivePrefix segment = false

variable {d : Bytes} {absolute : Bool} {parts : List Bytes}

theorem plain_rooted : Plain d true parts := fun _ impossible => by cases impossible

theorem segments_of_not_plain (prefixed : ¬Plain d absolute parts) :
    d = [] ∧ absolute = false ∧
      ∃ letter rest names, isAlpha letter = true ∧ parts = (letter :: 0x3A :: rest) :: names := by
  simp only [Plain, not_forall] at prefixed
  obtain ⟨none, relative, segment, first, prefixed⟩ := prefixed
  cases parts with
  | nil => cases first
  | cons segment names =>
    cases first
    rcases segment with - | ⟨letter, - | ⟨colon, rest⟩⟩
    · cases prefixed rfl
    · cases prefixed rfl
    · have prefixed : isAlpha letter = true ∧ colon = 0x3A := by simpa [isDrivePrefix] using prefixed
      exact ⟨none, relative, letter, rest, names, prefixed.1, by rw [prefixed.2]⟩

section

variable {body : Bytes} (isDrive : IsDrive d) (plain : d = [] → absolute = false → isDrivePrefix body = false)
include isDrive plain

theorem drive_body : drive (d ++ (if absolute then [0x2F] else []) ++ body) = d := by
  rcases isDrive with rfl | ⟨letter, alpha, rfl⟩
  · have unprefixed : isDrivePrefix ([] ++ (if absolute then [0x2F] else []) ++ body) = false := by
      cases absolute with
      | true => cases body <;> simp [isDrivePrefix, isAlpha]
      | false => exact plain rfl rfl
    rw [drive, unprefixed]
    rfl
  · simp [drive, isDrivePrefix, alpha]

theorem drop_body : (d ++ (if absolute then [0x2F] else []) ++ body).drop
    (drive (d ++ (if absolute then [0x2F] else []) ++ body)).length = (if absolute then [0x2F] else []) ++ body := by
  rw [drive_body isDrive plain, append_assoc, drop_left]

theorem rooted_body (head : body.head?.any isSeparator = false) :
    rooted (d ++ (if absolute then [0x2F] else []) ++ body) = absolute := by
  rw [rooted, drop_body isDrive plain]
  cases absolute with
  | true => rfl
  | false => exact head

theorem segments_body (head : body.head?.any isSeparator = false) :
    segments (d ++ (if absolute then [0x2F] else []) ++ body) = scanSegments body.length body := by
  have left : body.dropWhile isSeparator = body := by
    cases body with
    | nil => rfl
    | cons c rest => exact dropWhile_cons_of_neg (by simpa using head)
  have whole : ((if absolute then [0x2F] else []) ++ body).dropWhile isSeparator = body := by
    cases absolute with
    | true => exact (dropWhile_cons_of_pos (by decide)).trans left
    | false => exact left
  unfold segments
  rw [drop_body isDrive plain, whole]

end

theorem Plain.joined (clean : ∀ s ∈ parts, Clean s) (plain : Plain d absolute parts) :
    d = [] → absolute = false → isDrivePrefix (joined parts) = false := by
  intro driveless relative
  cases parts with
  | nil => rfl
  | cons segment rest =>
    have ends : (rest.flatMap (0x2F :: ·)).head?.all isSeparator := by
      cases rest <;> simp [isSeparator]
    rw [Path.joined, isDrivePrefix_append (clean segment (by simp)).1 ends]
    exact plain driveless relative segment rfl

section

variable (isDrive : IsDrive d) (clean : ∀ s ∈ parts, Clean s) (plain : Plain d absolute parts)

include isDrive clean plain

theorem drive_text : drive (text d absolute parts) = d := drive_body isDrive (plain.joined clean)

theorem rooted_text :
    rooted (text d absolute parts) = absolute := rooted_body isDrive (plain.joined clean) (joined_head clean)

theorem segments_text : segments (text d absolute parts) = parts :=
  (segments_body isDrive (plain.joined clean) (joined_head clean)).trans
    (scanSegments_joined parts clean _ (Nat.le_refl _))

end

theorem splitOnP_joined (segment : Bytes) (rest : List Bytes) (clean : ∀ s ∈ segment :: rest, Clean s) :
    (joined (segment :: rest)).splitOnP isSeparator = segment :: rest := by
  induction rest generalizing segment with
  | nil =>
    simp only [joined, flatMap_nil, append_nil]
    exact splitOnP_eq_singleton (clean segment (by simp)).2
  | cons next others ih =>
    have whole : joined (segment :: next :: others) = segment ++ 0x2F :: joined (next :: others) := by simp [joined]
    rw [whole, splitOnP_append_cons_of_forall_mem (clean segment (by simp)).2 _ (by decide),
      ih next fun s mem => clean s (mem_cons_of_mem _ mem)]

theorem components_text (isDrive : IsDrive d) (clean : ∀ s ∈ parts, Clean s) (plain : Plain d absolute parts) :
    components ⟨text d absolute parts⟩ = parts := by
  have body : ((if absolute then [0x2F] else []) ++ joined parts).drop (if absolute then 1 else 0) = joined parts := by
    cases absolute <;> rfl
  unfold components
  rw [rooted_text isDrive clean plain, text, drop_body isDrive (plain.joined clean), body]
  cases parts with
  | nil => rfl
  | cons segment rest =>
    have nonempty : joined (segment :: rest) ≠ [] := by simp [joined, (clean segment (by simp)).1]
    rw [if_neg nonempty]
    exact splitOnP_joined segment rest clean

theorem text_separators (isDrive : IsDrive d) (clean : ∀ s ∈ parts, Clean s) : 0x5C ∉ text d absolute parts := by
  have outside : ∀ s ∈ parts, (0x5C : UInt8) ∉ s := by
    intro s mem inside
    exact absurd ((clean s mem).2 _ inside) (by decide)
  have inJoined : (0x5C : UInt8) ∉ joined parts := by
    cases parts with
    | nil => simp [joined]
    | cons segment rest =>
      simp only [joined, mem_append, mem_flatMap, mem_cons, not_or, not_exists, not_and]
      exact ⟨outside segment (by simp), fun s mem => ⟨by decide, outside s (by simp [mem])⟩⟩
  have inRoot : (0x5C : UInt8) ∉ (if absolute then [0x2F] else []) := by cases absolute <;> decide
  rcases isDrive with rfl | ⟨letter, alpha, rfl⟩
  · simp only [text, nil_append, mem_append, not_or]
    exact ⟨inRoot, inJoined⟩
  have inLetter : (0x5C : UInt8) ≠ letter := by
    rintro rfl
    exact absurd alpha (by decide)
  simp only [text, mem_append, mem_cons, not_or]
  exact ⟨⟨⟨inLetter, by decide⟩, inRoot⟩, inJoined⟩

end

end NginBase.IO.Path
