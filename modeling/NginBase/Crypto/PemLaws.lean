import NginBase.Crypto.Base64Laws
import NginBase.Crypto.Pem

namespace NginBase.Crypto.Pem

open Library Library.Lines Base64 List Except

section

variable {line label start : Bytes}

theorem extractBoundaryLabel_iff (front : Bytes) (space : start = front ++ [0x20]) :
    extractBoundaryLabel line start = some label ↔ line = start ++ (label ++ boundarySuffix) := by
  constructor
  · intro extracted
    unfold extractBoundaryLabel startsWith endsWith at extracted
    split at extracted
    · cases extracted
    rename_i boundaries
    simp only [Bool.not_eq_true', Bool.or_eq_true, not_or, Bool.not_eq_false, isPrefixOf_iff_prefix,
      isSuffixOf_iff_suffix] at boundaries
    obtain ⟨⟨tail, starts⟩, ⟨head, ends⟩⟩ := boundaries
    obtain ⟨middle, rfl⟩ : ∃ middle, tail = middle ++ boundarySuffix := by
      rcases append_eq_append_iff.mp (ends.trans starts.symm) with ⟨middle, split, overlap⟩ | ⟨middle, -, split⟩
      · rcases eq_nil_or_concat middle with rfl | ⟨others, c, rfl⟩
        · exact ⟨[], overlap.symm⟩
        -- the suffix would have the space of the prefix in it
        · have last : c = 0x20 := by
            rw [space, concat_eq_append, ← append_assoc] at split
            exact (append_inj' split rfl).2 |> singleton_inj.mp |>.symm
          have mem : (0x20 : UInt8) ∈ boundarySuffix := by rw [overlap, last]; simp
          exact absurd mem (by decide)
      · exact ⟨middle, split⟩
    rw [← starts] at extracted
    rw [← starts, ← Option.some.inj extracted]
    simp
  · rintro rfl
    have starts : startsWith (start ++ (label ++ boundarySuffix)) start = true :=
      isPrefixOf_iff_prefix.mpr (prefix_append _ _)
    have ends : endsWith (start ++ (label ++ boundarySuffix)) boundarySuffix = true := by
      apply isSuffixOf_iff_suffix.mpr
      rw [← append_assoc]
      exact suffix_append _ _
    unfold extractBoundaryLabel
    rw [starts, ends]
    simp

end

def IsWord (word : Bytes) : Prop := word ≠ [] ∧ ∀ c ∈ word, isLabelCharacter c = true ∧ c ≠ 0x20

inductive Words : Bytes → Prop
  | one (word : Bytes) (isWord : IsWord word) : Words word
  | more (word : Bytes) {rest : Bytes} (isWord : IsWord word) (words : Words rest) : Words (word ++ 0x20 :: rest)

theorem IsWord.snoc {word : Bytes} {c : UInt8} (isWord : IsWord word) (character : isLabelCharacter c = true)
    (notSpace : c ≠ 0x20) : IsWord (word ++ [c]) := by
  refine ⟨by simp, ?_⟩
  intro e mem
  rcases mem_append.mp mem with mem | mem
  · exact isWord.2 e mem
  · rw [mem_singleton.mp mem]
    exact ⟨character, notSpace⟩

theorem labelLoop_words (label : Bytes) (last : label.getLast? ≠ some 0x20) :
    (labelLoop true label = true → label ≠ [] → Words label) ∧
      (labelLoop false label = true → ∀ word, IsWord word → Words (word ++ label)) := by
  induction label with
  | nil =>
    constructor
    · intro _ filled
      exact absurd rfl filled
    · intro _ word isWord
      rw [append_nil]
      exact .one word isWord
  | cons c rest ih =>
    have restLast : rest.getLast? ≠ some 0x20 := by
      intro space
      cases rest with
      | nil => cases space
      | cons e others => exact last (by rw [getLast?_cons_cons]; exact space)
    obtain ⟨behindSpace, behindWord⟩ := ih restLast
    unfold labelLoop
    cases character : isLabelCharacter c with
    | false => simp
    | true =>
      by_cases space : c = 0x20
      · rw [if_pos space, if_pos space]
        constructor
        · intro impossible
          cases impossible
        · intro loop word isWord
          have filled : rest ≠ [] := by
            rintro rfl
            exact last (by rw [space]; rfl)
          rw [space]
          exact .more word isWord (behindSpace loop filled)
      · rw [if_neg space, if_neg space]
        constructor
        · intro loop _
          exact behindWord loop [c] ⟨by simp, by simpa using ⟨character, space⟩⟩
        · intro loop word isWord
          have words := behindWord loop (word ++ [c]) (isWord.snoc character space)
          rw [append_assoc] at words
          exact words

theorem labelLoop_word {word : Bytes} (isWord : IsWord word) (rest : Bytes) (previous : Bool) :
    labelLoop previous (word ++ rest) = labelLoop false rest := by
  have step (c : UInt8) (before : Bool) (others : Bytes) (inWord : isLabelCharacter c = true ∧ c ≠ 0x20) :
      labelLoop before (c :: others) = labelLoop false others := by
    simp [labelLoop, inWord]
  have behind : ∀ characters : Bytes, (∀ c ∈ characters, isLabelCharacter c = true ∧ c ≠ 0x20) →
      labelLoop false (characters ++ rest) = labelLoop false rest := by
    intro characters
    induction characters with
    | nil => exact fun _ => rfl
    | cons c others ih =>
      intro inWord
      rw [cons_append, step c false _ (inWord c (by simp))]
      exact ih fun e mem => inWord e (mem_cons_of_mem _ mem)
  obtain ⟨filled, inWord⟩ := isWord
  obtain ⟨c, others, rfl⟩ := exists_cons_of_ne_nil filled
  rw [cons_append, step c previous _ (inWord c (by simp))]
  exact behind others fun e mem => inWord e (mem_cons_of_mem _ mem)

theorem Words.edges {label : Bytes} (words : Words label) :
    label ≠ [] ∧ label.head? ≠ some 0x20 ∧ label.getLast? ≠ some 0x20 := by
  have front : ∀ word rest : Bytes, IsWord word → word ++ rest ≠ [] ∧ (word ++ rest).head? ≠ some 0x20 := by
    intro word rest ⟨filled, inWord⟩
    obtain ⟨c, others, rfl⟩ := exists_cons_of_ne_nil filled
    refine ⟨by simp, ?_⟩
    simpa using (inWord c (by simp)).2
  induction words with
  | one word isWord =>
    have ⟨filled, first⟩ := front word [] isWord
    rw [append_nil] at filled first
    refine ⟨filled, first, ?_⟩
    intro last
    exact (isWord.2 _ (mem_of_getLast? last)).2 rfl
  | more word isWord words ih =>
    rename_i rest
    have ⟨filled, first⟩ := front word (0x20 :: rest) isWord
    refine ⟨filled, first, ?_⟩
    have last : (word ++ 0x20 :: rest).getLast? = rest.getLast? := by
      rw [append_cons, getLast?_append_of_ne_nil _ ih.1]
    rw [last]
    exact ih.2.2

theorem isValidLabel_iff (label : Bytes) : isValidLabel label = true ↔ Words label := by
  unfold isValidLabel
  constructor
  · intro valid
    split at valid
    · cases valid
    rename_i edges
    simp only [not_or] at edges
    obtain ⟨filled, first, last⟩ := edges
    apply (labelLoop_words label last).1 _ filled
    obtain ⟨c, rest, rfl⟩ := exists_cons_of_ne_nil filled
    have notSpace : c ≠ 0x20 := fun is => first (by rw [is]; rfl)
    rw [← valid]
    simp [labelLoop, notSpace]
  · intro words
    obtain ⟨filled, first, last⟩ := words.edges
    rw [if_neg (by simp only [not_or]; exact ⟨filled, first, last⟩)]
    induction words with
    | one word isWord =>
      have loop := labelLoop_word isWord [] false
      rw [append_nil] at loop
      rw [loop]
      rfl
    | more word isWord words ih =>
      obtain ⟨filled, first, last⟩ := words.edges
      rw [labelLoop_word isWord, ← ih filled first last]
      obtain ⟨c, others, rfl⟩ := exists_cons_of_ne_nil filled
      have notSpace : c ≠ 0x20 := fun is => first (by rw [is]; rfl)
      have character : isLabelCharacter 0x20 = true := by decide
      simp [labelLoop, notSpace, character]

section

variable {payload decoded : Bytes} {maxDecodedBytes : Nat}

theorem padded_length (bytes : Bytes) : (text .required bytes).length = (bytes.length + 2) / 3 * 4 := by
  rw [text_length]
  unfold encodedLength
  dsimp only
  split <;> omega

theorem decode_padded : (payload.length % 4 = 0 ∧ decode payload = .ok decoded) ↔
    payload = text .required decoded := by
  have padded := padded_length decoded
  constructor
  · intro ⟨whole, read⟩
    obtain ⟨padding, is⟩ := (framed_iff payload decoded).mp ((decode_iff payload decoded).mp read)
    cases padding with
    | required => exact is
    | omitted =>
      have length := text_length .omitted decoded
      rw [← is] at length
      have level : decoded.length % 3 = 0 := by
        unfold encodedLength at length
        dsimp only at length
        split at length <;> omega
      rw [is, text, text, level]
      rfl
  · intro is
    constructor
    · rw [is]
      omega
    · exact (decode_iff payload decoded).mpr ((framed_iff payload decoded).mpr ⟨.required, is⟩)

theorem text_filled : text .required decoded ≠ [] ↔ decoded ≠ [] := by
  rw [← length_pos_iff, ← length_pos_iff, padded_length]
  omega

theorem letter_character {q : UInt8} (small : q.toNat < 64) : isBase64Character (letter q) = true := by
  have all : ∀ n : Fin 64, isBase64Character (letter (.ofNat n.val)) = true := by decide
  have character := all ⟨q.toNat, small⟩
  rwa [UInt8.ofNat_toNat] at character

theorem text_characters (decoded : Bytes) : ∀ c ∈ text .required decoded, isBase64Character c = true := by
  intro c mem
  rcases mem_append.mp mem with mem | mem
  · obtain ⟨q, inside, rfl⟩ := mem_map.mp mem
    exact letter_character ((sextets_tight decoded).small q inside)
  · rw [eq_of_mem_replicate mem]
    decide

theorem canFit_iff {count : Nat} : canFitEncodedBase64Length count maxDecodedBytes = true ↔
    2 ^ 64 - 3 < maxDecodedBytes ∨ count ≤ ((maxDecodedBytes + 2) / 3 * 4 + 4) % 2 ^ 64 := by
  unfold canFitEncodedBase64Length
  split
  · exact iff_of_true rfl (.inl ‹_›)
  · rw [decide_eq_true_eq]
    exact (or_iff_right ‹_›).symm

theorem canFit_part {count : Nat} (bounded : maxDecodedBytes < 2 ^ 62) (small : decoded.length ≤ maxDecodedBytes)
    (part : count ≤ (text .required decoded).length) : canFitEncodedBase64Length count maxDecodedBytes = true := by
  rw [padded_length] at part
  rw [canFit_iff]
  omega

/-- A bound from `3 * 2 ^ 62 - 5` on wraps around, and what fits is far shorter than it says. -/
theorem prefixes_fit_iff (small : maxDecodedBytes < 2 ^ 64) (within : decoded.length ≤ maxDecodedBytes) :
    (∀ count < 2 ^ 64, count ≤ (text .required decoded).length → canFitEncodedBase64Length count maxDecodedBytes = true) ↔
      maxDecodedBytes < 3 * 2 ^ 62 - 5 ∨ 2 ^ 64 - 3 < maxDecodedBytes ∨
        decoded.length ≤ 3 * ((maxDecodedBytes + 2) / 3 + 1 - 2 ^ 62) := by
  simp only [canFit_iff, padded_length]
  constructor
  · intro fits
    have last := fits (min (2 ^ 64 - 1) ((decoded.length + 2) / 3 * 4)) (by omega) (by omega)
    omega
  · intro fits count _ part
    omega

theorem prefixes_fit_top : (∀ count < 2 ^ 64, count ≤ (text .required [0]).length →
    canFitEncodedBase64Length count (2 ^ 64 - 1) = true) ∧ (text .required [0]).length = 4 :=
  ⟨(prefixes_fit_iff (by decide) (by decide)).mpr (.inr (.inl (by decide))), by decide⟩

theorem prefixes_misfit : ¬ ∀ maxDecodedBytes < 2 ^ 64, ∀ decoded : Bytes, decoded.length ≤ maxDecodedBytes → ∀ count < 2 ^ 64,
    count ≤ (text .required decoded).length → canFitEncodedBase64Length count maxDecodedBytes = true := by
  intro fits
  exact absurd (fits 0xBFFFFFFFFFFFFFFB (by decide) [0] (by decide) 4 (by decide) (by decide)) (by decide)

end

/-- A block as it is written: the empty lines before it, and the lines of its payload. -/
structure Writing where
  block : PemBlock
  blanks : Nat
  cut : List Bytes

def beginLine (label : Bytes) : Bytes := beginPrefix ++ (label ++ boundarySuffix)

def endLine (label : Bytes) : Bytes := endPrefix ++ (label ++ boundarySuffix)

namespace Writing

def lines (writing : Writing) : List Bytes :=
  replicate writing.blanks [] ++
    beginLine writing.block.label :: (writing.cut ++ [endLine writing.block.label])

structure Admissible (maxDecodedBytes : Nat) (writing : Writing) : Prop where
  label : Words writing.block.label
  filled : writing.block.decoded ≠ []
  small : writing.block.decoded.length ≤ maxDecodedBytes
  payload : writing.cut.flatten = text .required writing.block.decoded
  cuts : ∀ line ∈ writing.cut, line ≠ []

end Writing

def documentLines (writings : List Writing) (blanks : Nat) : List Bytes :=
  writings.flatMap Writing.lines ++ replicate blanks []

/-- The text is a way of writing the blocks. Where `unended` allows it, the last line may stand without an end. -/
def IsPem (unended : Prop) (maxDecodedBytes : Nat) (text : Bytes) (blocks : List PemBlock) : Prop :=
  ∃ (writings : List Writing) (blanks : Nat), (∀ writing ∈ writings, writing.Admissible maxDecodedBytes) ∧
    blocks = writings.map Writing.block ∧ Written unended (documentLines writings blanks) text

section

variable {options : PemParseOptions} {state next final : ParseState} {line label decoded : Bytes}

theorem beginLine_iff : extractBoundaryLabel line beginPrefix = some label ↔ line = beginLine label :=
  extractBoundaryLabel_iff [0x2D, 0x2D, 0x2D, 0x2D, 0x2D, 0x42, 0x45, 0x47, 0x49, 0x4E] rfl

theorem endLine_iff : extractBoundaryLabel line endPrefix = some label ↔ line = endLine label :=
  extractBoundaryLabel_iff [0x2D, 0x2D, 0x2D, 0x2D, 0x2D, 0x45, 0x4E, 0x44] rfl

theorem acceptLine_blank (accepted : acceptLine options state [] = .ok next) : next = state := by
  unfold acceptLine at accepted
  split at accepted
  · exact (ok.inj accepted).symm
  · cases accepted

theorem accept_outside (outside : state.insideBlock = false) (all : options.allowedLabels = [])
    (multiple : options.allowMultipleBlocks = true) : acceptLine options state line = .ok next ↔
      line = [] ∧ next = state ∨
        ∃ label, Words label ∧ line = beginLine label ∧
          next = { state with currentLabel := label, encodedPayload := [], insideBlock := true } := by
  have allowed (label : Bytes) : isAllowedLabel label options = true := by simp [isAllowedLabel, all]
  have step : acceptLine options state line = acceptOutside options state line := by
    unfold acceptLine
    rw [outside]
    rfl
  have turned {value : ParseState} : (ok value : CryptoExpected ParseState) = .ok next ↔ next = value := by
    rw [ok.injEq]
    exact eq_comm
  rw [step]
  unfold acceptOutside
  by_cases blank : line = []
  · simp [blank, turned]
    intro label _ impossible
    cases impossible
  · cases extracted : extractBoundaryLabel line beginPrefix with
    | none =>
      have unlabelled (label : Bytes) : line ≠ beginLine label := by
        intro is
        rw [beginLine_iff.mpr is] at extracted
        cases extracted
      simp [parseError, blank, unlabelled]
    | some label =>
      have same (other : Bytes) : line = beginLine other ↔ other = label := by
        rw [← beginLine_iff, extracted, Option.some.injEq]
        exact eq_comm
      by_cases words : Words label
      · have valid := (isValidLabel_iff label).mpr words
        simp [valid, allowed, multiple, blank, same, turned, words]
      have invalid : isValidLabel label = false := by
        rw [← Bool.not_eq_true, isValidLabel_iff]
        exact words
      simp [invalid, parseError, blank, same, words]

theorem closeBlock_ok : closeBlock options state label = .ok next ↔
    label = state.currentLabel ∧ ∃ decoded, decoded ≠ [] ∧ decoded.length ≤ options.maxDecodedBytes ∧
      state.encodedPayload = text .required decoded ∧
        next = { blocks := state.blocks ++ [⟨state.currentLabel, decoded⟩] } := by
  unfold closeBlock
  constructor
  · intro closed
    split at closed
    · cases closed
    rename_i fits
    rw [not_or, not_not] at fits
    split at closed
    · cases closed
    rename_i whole
    rw [not_not] at whole
    have ⟨decoded, read, rest⟩ := bind_ok closed
    have is := decode_padded.mp ⟨whole, read⟩
    split at rest
    · cases rest
    rename_i small
    exact ⟨fits.1, decoded, text_filled.mp (by rw [← is]; exact fits.2), Nat.le_of_not_lt small, is,
      (ok.inj rest).symm⟩
  · intro ⟨same, decoded, filled, small, payload, is⟩
    obtain ⟨whole, read⟩ := decode_padded.mpr payload
    have some_ : state.encodedPayload ≠ [] := by
      rw [payload]
      exact text_filled.mpr filled
    rw [if_neg (by simp [same, some_]), if_neg (not_not.mpr whole), read, ok_bind, if_neg (Nat.not_lt.mpr small), is]
    rfl

section

variable (inside : state.insideBlock = true)

include inside

theorem acceptInside_eq : acceptLine options state line = acceptInside options state line := by
  unfold acceptLine
  rw [inside]
  rfl

theorem accept_inside (accepted : acceptLine options state line = .ok next) :
    (∃ decoded, line = endLine state.currentLabel ∧ decoded ≠ [] ∧ decoded.length ≤ options.maxDecodedBytes ∧
      state.encodedPayload = text .required decoded ∧
        next = { blocks := state.blocks ++ [⟨state.currentLabel, decoded⟩] }) ∨
    line ≠ [] ∧ next = { state with encodedPayload := state.encodedPayload ++ line } := by
  rw [acceptInside_eq inside] at accepted
  unfold acceptInside at accepted
  split at accepted
  · cases accepted
  cases extracted : extractBoundaryLabel line endPrefix with
  | some label =>
    rw [extracted] at accepted
    obtain ⟨same, decoded, filled, small, payload, is⟩ := closeBlock_ok.mp accepted
    left
    refine ⟨decoded, ?_, filled, small, payload, is⟩
    rw [← same]
    exact endLine_iff.mp extracted
  | none =>
    rw [extracted] at accepted
    dsimp only at accepted
    split at accepted
    · cases accepted
    rename_i blank
    split at accepted
    · cases accepted
    split at accepted
    · cases accepted
    right
    exact ⟨blank, (ok.inj accepted).symm⟩

theorem accept_end (filled : decoded ≠ []) (small : decoded.length ≤ options.maxDecodedBytes)
    (payload : state.encodedPayload = text .required decoded) : acceptLine options state (endLine state.currentLabel) =
      .ok { blocks := state.blocks ++ [⟨state.currentLabel, decoded⟩] } := by
  have apart : startsWith (endLine state.currentLabel) beginPrefix = false := by
    simp [startsWith, endLine, endPrefix, beginPrefix, isPrefixOf]
  have extracted := endLine_iff.mpr (rfl : endLine state.currentLabel = endLine state.currentLabel)
  rw [acceptInside_eq inside]
  unfold acceptInside
  rw [extracted]
  exact closeBlock_ok.mpr ⟨rfl, decoded, filled, small, payload, rfl⟩

theorem accept_payload (blank : line ≠ []) (characters : ∀ c ∈ line, isBase64Character c = true)
    (fits : canFitEncodedBase64Length (state.encodedPayload.length + line.length) options.maxDecodedBytes = true) :
    acceptLine options state line = .ok { state with encodedPayload := state.encodedPayload ++ line } := by
  obtain ⟨c, rest, is⟩ := exists_cons_of_ne_nil blank
  have first : c ≠ 0x2D := by
    rintro rfl
    exact absurd (characters 0x2D (by rw [is]; simp)) (by decide)
  have apart : startsWith line beginPrefix = false := by
    rw [is]
    simp [startsWith, beginPrefix, isPrefixOf, first.symm]
  have unlabelled : extractBoundaryLabel line endPrefix = none := by
    apply Option.eq_none_iff_forall_not_mem.mpr
    intro label extracted
    have boundary := endLine_iff.mp extracted
    rw [is] at boundary
    exact first (cons.inj boundary).1
  have letters : line.all isBase64Character = true := all_eq_true.mpr characters
  rw [acceptInside_eq inside]
  unfold acceptInside
  rw [if_neg (by rw [apart]; decide), unlabelled]
  rw [if_neg blank, letters, fits]
  rfl

end

end

section

variable {options : PemParseOptions} {state final : ParseState} {writing : Writing} {writings : List Writing}
  {blanks : Nat} {blocks : List PemBlock} {text : Bytes}

theorem fold_blanks (outside : state.insideBlock = false) :
    (replicate blanks []).foldlM (acceptLine options) state = .ok state := by
  induction blanks with
  | zero => rfl
  | succ blanks ih =>
    have step : acceptLine options state [] = .ok state := by
      unfold acceptLine
      rw [outside]
      rfl
    rw [replicate_succ, foldlM_cons, step]
    exact ih

theorem fold_cut (bounded : options.maxDecodedBytes < 2 ^ 62) {decoded : Bytes}
    (small : decoded.length ≤ options.maxDecodedBytes) (cut : List Bytes) (filled : ∀ line ∈ cut, line ≠ [])
    (inside : state.insideBlock = true) (payload : state.encodedPayload ++ cut.flatten = Base64.text .required decoded) :
    cut.foldlM (acceptLine options) state = .ok { state with encodedPayload := state.encodedPayload ++ cut.flatten } := by
  induction cut generalizing state with
  | nil =>
    rw [flatten_nil, append_nil]
    rfl
  | cons line rest ih =>
    rw [flatten_cons, ← append_assoc] at payload
    have characters : ∀ c ∈ line, isBase64Character c = true := by
      intro c mem
      have inside' : c ∈ text .required decoded := by
        rw [← payload]
        simp [mem]
      exact text_characters decoded c inside'
    have part : state.encodedPayload.length + line.length ≤ (text .required decoded).length := by
      rw [← payload, length_append, length_append]
      omega
    rw [foldlM_cons, accept_payload inside (filled line (by simp)) characters (canFit_part bounded small part),
      ok_bind]
    let further : ParseState := { state with encodedPayload := state.encodedPayload ++ line }
    have collected : rest.foldlM (acceptLine options) further =
        .ok { further with encodedPayload := further.encodedPayload ++ rest.flatten } :=
      ih (fun s mem => filled s (mem_cons_of_mem _ mem)) inside payload
    rw [collected]
    simp [further]

section

variable (bounded : options.maxDecodedBytes < 2 ^ 62) (all : options.allowedLabels = [])
    (multiple : options.allowMultipleBlocks = true)

include bounded all multiple

theorem fold_writing (admissible : writing.Admissible options.maxDecodedBytes) :
    writing.lines.foldlM (acceptLine options) { blocks } = .ok { blocks := blocks ++ [writing.block] } := by
  let begun : ParseState :=
    { blocks, currentLabel := writing.block.label, encodedPayload := [], insideBlock := true }
  have begins : acceptLine options { blocks } (beginLine writing.block.label) = .ok begun :=
    (accept_outside rfl all multiple).mpr (.inr ⟨writing.block.label, admissible.label, rfl, rfl⟩)
  have collected : writing.cut.foldlM (acceptLine options) begun =
      .ok { begun with encodedPayload := [] ++ writing.cut.flatten } :=
    fold_cut bounded admissible.small writing.cut admissible.cuts rfl admissible.payload
  let complete : ParseState := { begun with encodedPayload := [] ++ writing.cut.flatten }
  have payload : complete.encodedPayload = text .required writing.block.decoded := admissible.payload
  have inside : complete.insideBlock = true := rfl
  have closed : acceptLine options complete (endLine writing.block.label) =
      .ok { blocks := blocks ++ [writing.block] } := accept_end inside admissible.filled admissible.small payload
  unfold Writing.lines
  rw [foldlM_append, fold_blanks rfl, ok_bind, foldlM_cons, begins, ok_bind, foldlM_append, collected,
    ok_bind, foldlM_cons, closed]
  rfl

theorem fold_document (admissible : ∀ writing ∈ writings, writing.Admissible options.maxDecodedBytes) :
    (documentLines writings blanks).foldlM (acceptLine options) { blocks } =
      .ok { blocks := blocks ++ writings.map Writing.block } := by
  unfold documentLines
  induction writings generalizing blocks with
  | nil =>
    rw [flatMap_nil, nil_append, fold_blanks rfl]
    simp
  | cons writing rest ih =>
    rw [flatMap_cons, append_assoc, foldlM_append,
      fold_writing bounded all multiple (admissible writing (by simp)), ok_bind,
      ih fun other mem => admissible other (mem_cons_of_mem _ mem)]
    simp

end

theorem Words.characters {label : Bytes} (words : Words label) : ∀ c ∈ label, isLabelCharacter c = true := by
  induction words with
  | one word isWord => exact fun c mem => (isWord.2 c mem).1
  | more word isWord words ih =>
    intro c mem
    rcases mem_append.mp mem with mem | mem
    · exact (isWord.2 c mem).1
    rcases mem_cons.mp mem with rfl | mem
    · decide
    · exact ih c mem

theorem whole_boundary {start label : Bytes} (whole : Whole start) (words : Words label) :
    Whole (start ++ (label ++ boundarySuffix)) := by
  intro c mem
  rcases mem_append.mp mem with mem | mem
  · exact whole c mem
  rcases mem_append.mp mem with mem | mem
  · have character := words.characters c mem
    constructor
    · rintro rfl
      exact absurd character (by decide)
    · rintro rfl
      exact absurd character (by decide)
  · rw [show c = 0x2D from eq_of_mem_replicate (n := 5) mem]
    decide

theorem whole_lines (admissible : ∀ writing ∈ writings, writing.Admissible options.maxDecodedBytes) :
    ∀ line ∈ documentLines writings blanks, Whole line := by
  have blank : ∀ count, ∀ line ∈ replicate count ([] : Bytes), Whole line := by
    intro count line mem
    rw [eq_of_mem_replicate mem]
    exact fun c impossible => by cases impossible
  intro line mem
  rcases mem_append.mp mem with mem | mem
  · obtain ⟨writing, listed, inside⟩ := mem_flatMap.mp mem
    have admits := admissible writing listed
    rcases mem_append.mp inside with inside | inside
    · exact blank _ line inside
    rcases mem_cons.mp inside with rfl | inside
    · exact whole_boundary (by unfold Whole; decide +kernel) admits.label
    rcases mem_append.mp inside with inside | inside
    · intro c within
      have letter : isBase64Character c = true := by
        apply text_characters writing.block.decoded
        rw [← admits.payload]
        exact mem_flatten.mpr ⟨line, inside, within⟩
      constructor
      · rintro rfl
        exact absurd letter (by decide)
      · rintro rfl
        exact absurd letter (by decide)
    · rw [mem_singleton.mp inside]
      exact whole_boundary (by unfold Whole; decide +kernel) admits.label
  · exact blank _ line mem

theorem documentLines_blank (blanks : Nat) (admissible : ∀ writing ∈ writings, writing.Admissible options.maxDecodedBytes) :
    ∃ (more : List Writing) (count : Nat), (∀ writing ∈ more, writing.Admissible options.maxDecodedBytes) ∧
      [] :: documentLines writings blanks = documentLines more count ∧
        writings.map Writing.block = more.map Writing.block := by
  cases writings with
  | nil => exact ⟨[], blanks + 1, by simp, rfl, rfl⟩
  | cons writing rest =>
    refine ⟨{ writing with blanks := writing.blanks + 1 } :: rest, blanks, ?_, ?_, rfl⟩
    · intro other mem
      rcases mem_cons.mp mem with rfl | mem
      · obtain ⟨label, filled, small, payload, cuts⟩ := admissible writing (by simp)
        exact ⟨label, filled, small, payload, cuts⟩
      · exact admissible other (mem_cons_of_mem _ mem)
    · simp [documentLines, Writing.lines, replicate_succ]

theorem fold_sound (all : options.allowedLabels = []) (multiple : options.allowMultipleBlocks = true)
    (ls : List Bytes) (run : ls.foldlM (acceptLine options) state = .ok final) (ends : final.insideBlock = false) :
    (state.insideBlock = false → ∃ writings blanks,
      (∀ writing ∈ writings, writing.Admissible options.maxDecodedBytes) ∧ ls = documentLines writings blanks ∧
        final.blocks = state.blocks ++ writings.map Writing.block) ∧
    (state.insideBlock = true → ∃ cut decoded writings blanks, (∀ line ∈ cut, line ≠ []) ∧
      state.encodedPayload ++ cut.flatten = Base64.text .required decoded ∧ decoded ≠ [] ∧
      decoded.length ≤ options.maxDecodedBytes ∧
      (∀ writing ∈ writings, writing.Admissible options.maxDecodedBytes) ∧
      ls = cut ++ endLine state.currentLabel :: documentLines writings blanks ∧
        final.blocks = state.blocks ++ ⟨state.currentLabel, decoded⟩ :: writings.map Writing.block) := by
  induction ls generalizing state with
  | nil =>
    have same : state = final := ok.inj run
    constructor
    · intro _
      exact ⟨[], 0, by simp, rfl, by rw [same]; simp⟩
    · intro inside
      rw [same, ends] at inside
      cases inside
  | cons line rest ih =>
    have ⟨next, accepted, then_⟩ := bind_ok run
    obtain ⟨fromOutside, fromInside⟩ := ih then_
    constructor
    · intro outside
      rcases (accept_outside outside all multiple).mp accepted with ⟨rfl, rfl⟩ | ⟨label, words, rfl, rfl⟩
      · obtain ⟨writings, blanks, admissible, rfl, is⟩ := fromOutside outside
        obtain ⟨more, count, admits, lines_, blocks_⟩ := documentLines_blank blanks admissible
        exact ⟨more, count, admits, lines_, by rw [is, blocks_]⟩
      · obtain ⟨cut, decoded, writings, blanks, cuts, payload, filled, small, admissible, rfl, is⟩ := fromInside rfl
        refine ⟨⟨⟨label, decoded⟩, 0, cut⟩ :: writings, blanks, ?_, ?_, ?_⟩
        · intro writing mem
          rcases mem_cons.mp mem with rfl | mem
          · exact ⟨words, filled, small, payload, cuts⟩
          · exact admissible writing mem
        · simp [documentLines, Writing.lines]
        · rw [is]
          rfl
    · intro inside
      rcases accept_inside inside accepted with ⟨decoded, rfl, filled, small, payload, rfl⟩ | ⟨blank, rfl⟩
      · obtain ⟨writings, blanks, admissible, rfl, is⟩ := fromOutside rfl
        refine ⟨[], decoded, writings, blanks, by simp, by simpa using payload, filled, small, admissible, rfl, ?_⟩
        rw [is]
        simp
      · obtain ⟨cut, decoded, writings, blanks, cuts, payload, filled, small, admissible, rfl, is⟩ := fromInside inside
        refine ⟨line :: cut, decoded, writings, blanks, ?_, ?_, filled, small, admissible, rfl, is⟩
        · intro other mem
          rcases mem_cons.mp mem with rfl | mem
          · exact blank
          · exact cuts other mem
        · rw [← payload]
          simp

theorem parsePem_ok : parsePem options text = .ok blocks ↔ blocks ≠ [] ∧
    ∃ state, (lines text).foldlM (acceptLine options) {} = .ok state ∧ state.insideBlock = false ∧ state.blocks = blocks := by
  unfold parsePem
  rw [parseLoop_lines options (Nat.le_refl _)]
  constructor
  · intro parsed
    have ⟨state, run, rest⟩ := bind_ok parsed
    split at rest
    · cases rest
    rename_i closed
    rw [Bool.or_eq_true, not_or, Bool.not_eq_true, beq_iff_eq, length_eq_zero_iff] at closed
    have is : state.blocks = blocks := ok.inj rest
    rw [← is]
    exact ⟨closed.2, state, run, closed.1, rfl⟩
  · intro ⟨filled, state, run, closed, is⟩
    rw [run, ok_bind, closed, is]
    simp [filled]

/-- With all labels allowed the texts accepted are those of at least one block. The last line needs no end. -/
theorem parsePem_iff (options : PemParseOptions) (all : options.allowedLabels = [])
    (multiple : options.allowMultipleBlocks = true) (bounded : options.maxDecodedBytes < 2 ^ 62) (text : Bytes)
    (blocks : List PemBlock) :
    parsePem options text = .ok blocks ↔ blocks ≠ [] ∧ IsPem True options.maxDecodedBytes text blocks := by
  rw [parsePem_ok]
  apply and_congr_right
  intro _
  constructor
  · intro ⟨state, run, closed, is⟩
    obtain ⟨writings, blanks, admissible, document, blocks_⟩ := (fold_sound all multiple (lines text) run closed).1 rfl
    refine ⟨writings, blanks, admissible, ?_, ?_⟩
    · rw [← is, blocks_]
      rfl
    · rw [← document]
      exact (lines_written text).1
  · intro ⟨writings, blanks, admissible, is, written⟩
    have thin := (lines_thinned written (whole_lines admissible)).1
    have run : (documentLines writings blanks).foldlM (acceptLine options) {} = .ok { blocks := [] ++ writings.map Writing.block } :=
      fold_document bounded all multiple admissible
    refine ⟨{ blocks }, ?_, rfl, rfl⟩
    rw [is]
    exact thin.foldlM (fun _ _ => acceptLine_blank) run

/-- A block with the byte `f`, without an end of its last line. -/
def shortPem : Bytes := beginLine [0x41] ++ (0x0A :: [0x5A, 0x67, 0x3D, 0x3D] ++ (0x0A :: endLine [0x41]))

theorem parsePem_iff_short : parsePem {} shortPem = .ok [⟨[0x41], [0x66]⟩] := by
  let writing : Writing := { block := ⟨[0x41], [0x66]⟩, blanks := 0, cut := [[0x5A, 0x67, 0x3D, 0x3D]] }
  have isWord : IsWord [0x41] := ⟨by decide, by decide +kernel⟩
  have admissible : writing.Admissible (1 <<< 20) :=
    ⟨.one [0x41] isWord, by decide, by decide, by decide +kernel, by decide +kernel⟩
  have all : ∀ other ∈ [writing], other.Admissible (1 <<< 20) := by
    intro other mem
    rw [mem_singleton.mp mem]
    exact admissible
  have written : Written True (documentLines [writing] 0) shortPem :=
    .cons (beginLine [0x41]) .lf (.cons [0x5A, 0x67, 0x3D, 0x3D] .lf (.last (endLine [0x41]) True.intro (by decide)))
  apply (parsePem_iff {} rfl rfl (by decide) shortPem _).mpr
  exact ⟨by decide, [writing], 0, all, rfl, written⟩

theorem parsePem_differs : ¬(∀ text blocks, IsPem False (1 <<< 20) text blocks → parsePem {} text = .ok blocks) ∧
      ¬(∀ text blocks, parsePem {} text = .ok blocks → IsPem False (1 <<< 20) text blocks) := by
  constructor
  · intro complete
    have none_ := complete [] [] ⟨[], 0, by simp, rfl, .nil⟩
    revert none_
    decide
  · intro sound
    have parsed : parsePem {} shortPem = .ok [⟨[0x41], [0x66]⟩] := by decide +kernel
    obtain ⟨writings, blanks, -, -, written⟩ := sound shortPem _ parsed
    have last := written.getLast (by decide)
    revert last
    decide

end

end NginBase.Crypto.Pem
