import NginBase.Crypto.Base64
import NginBase.Library.Output

namespace NginBase.Crypto.Pem

open Library List

def beginPrefix : Bytes := [0x2D, 0x2D, 0x2D, 0x2D, 0x2D, 0x42, 0x45, 0x47, 0x49, 0x4E, 0x20]

def endPrefix : Bytes := [0x2D, 0x2D, 0x2D, 0x2D, 0x2D, 0x45, 0x4E, 0x44, 0x20]

def boundarySuffix : Bytes := [0x2D, 0x2D, 0x2D, 0x2D, 0x2D]

def startsWith (text start : Bytes) : Bool := start.isPrefixOf text

def endsWith (text ending : Bytes) : Bool := ending.isSuffixOf text

def insideLine (character : UInt8) : Bool := character != 0x0D && character != 0x0A

def skipLineEnd : Bytes → Bytes
  | 0x0D :: 0x0A :: rest => rest
  | _ :: rest => rest
  | [] => []

/-- The line at the front of what is left of the input, and what is left behind it. -/
def readLine (input : Bytes) : Option (Bytes × Bytes) :=
  if input = [] then none
  else some (input.takeWhile insideLine, skipLineEnd (input.dropWhile insideLine))

/-- A line cannot be shorter than the two boundaries together: the prefixes end in a space. -/
def extractBoundaryLabel (line start : Bytes) : Option Bytes :=
  if !startsWith line start || !endsWith line boundarySuffix then none
  else some ((line.drop start.length).take (line.length - start.length - boundarySuffix.length))

def isLabelCharacter (character : UInt8) : Bool :=
  (0x41 ≤ character && character ≤ 0x5A) || (0x30 ≤ character && character ≤ 0x39) || character == 0x20

def labelLoop : Bool → Bytes → Bool
  | _, [] => true
  | previousWasSpace, character :: rest =>
    if !isLabelCharacter character then false
    else if character = 0x20 then if previousWasSpace then false else labelLoop true rest
    else labelLoop false rest

def isValidLabel (label : Bytes) : Bool :=
  if label = [] ∨ label.head? = some 0x20 ∨ label.getLast? = some 0x20 then false else labelLoop false label

structure PemBlock where
  label : Bytes
  decoded : Bytes
deriving DecidableEq

structure PemParseOptions where
  allowedLabels : List Bytes := []
  maxDecodedBytes : Nat := 1 <<< 20
  allowMultipleBlocks : Bool := true

section

def isAllowedLabel (label : Bytes) (options : PemParseOptions) : Bool :=
  if options.allowedLabels.length = 0 then true else options.allowedLabels.any (label == ·)

def isBase64Character (character : UInt8) : Bool :=
  (0x41 ≤ character && character ≤ 0x5A) || (0x61 ≤ character && character ≤ 0x7A) ||
    (0x30 ≤ character && character ≤ 0x39) || character == 0x2B || character == 0x2F || character == 0x3D

def canFitEncodedBase64Length (encodedLength maxDecodedBytes : Nat) : Bool :=
  if 2 ^ 64 - 1 - 2 < maxDecodedBytes then true
  else
    let maximumEncodedLength := ((maxDecodedBytes + 2) / 3 * 4 + 4) % 2 ^ 64
    encodedLength ≤ maximumEncodedLength

structure ParseState where
  blocks : List PemBlock := []
  currentLabel : Bytes := []
  encodedPayload : Bytes := []
  insideBlock : Bool := false

variable (options : PemParseOptions)

def parseError {α : Type} : CryptoExpected α := .error (.code .parseError)

def encodingError {α : Type} : CryptoExpected α := .error (.code .encodingError)

/-- The body of the loop of `ParsePem` outside of a block. -/
def acceptOutside (state : ParseState) (line : Bytes) : CryptoExpected ParseState :=
  if line = [] then .ok state
  else
    match extractBoundaryLabel line beginPrefix with
    | none => parseError
    | some label =>
      if !isValidLabel label || !isAllowedLabel label options then parseError
      else if !options.allowMultipleBlocks && state.blocks.length != 0 then parseError
      else .ok { state with currentLabel := label, encodedPayload := [], insideBlock := true }

/-- A block is complete: `endLabel` is the label at its end. -/
def closeBlock (state : ParseState) (endLabel : Bytes) : CryptoExpected ParseState := do
  if endLabel ≠ state.currentLabel ∨ state.encodedPayload = [] then parseError
  else if state.encodedPayload.length % 4 ≠ 0 then encodingError
  else
    let decoded ← Base64.decode state.encodedPayload
    if options.maxDecodedBytes < decoded.length then parseError
    else return { blocks := state.blocks ++ [⟨state.currentLabel, decoded⟩] }

def acceptInside (state : ParseState) (line : Bytes) : CryptoExpected ParseState :=
  if startsWith line beginPrefix then parseError
  else
    match extractBoundaryLabel line endPrefix with
    | some endLabel => closeBlock options state endLabel
    | none =>
      if line = [] then parseError
      else if !line.all isBase64Character then encodingError
      else if !canFitEncodedBase64Length (state.encodedPayload.length + line.length) options.maxDecodedBytes then
        parseError
      else .ok { state with encodedPayload := state.encodedPayload ++ line }

def acceptLine (state : ParseState) (line : Bytes) : CryptoExpected ParseState :=
  if !state.insideBlock then acceptOutside options state line else acceptInside options state line

/-- The loop of `ParsePem`. `fuel` bounds the number of lines. -/
def parseLoop : Nat → Bytes → ParseState → CryptoExpected ParseState
  | 0, _, state => .ok state
  | fuel + 1, input, state =>
    match readLine input with
    | none => .ok state
    | some (line, rest) => do
      let state ← acceptLine options state line
      parseLoop fuel rest state

def parsePem (input : Bytes) : CryptoExpected (List PemBlock) := do
  let state ← parseLoop options input.length input {}
  if state.insideBlock || state.blocks.length == 0 then parseError else return state.blocks

end

open Library.Lines

section

variable {line rest tail : Bytes}

@[simp] theorem insideLine_iff {c : UInt8} : insideLine c = true ↔ c ≠ 0x0D ∧ c ≠ 0x0A := by simp [insideLine]

theorem readLine_front (whole : Whole line) (ends : ∀ c, tail.head? = some c → insideLine c = false)
    (some_ : line ++ tail ≠ []) : readLine (line ++ tail) = some (line, skipLineEnd tail) := by
  have inside : ∀ c ∈ line, insideLine c = true := fun c mem => insideLine_iff.mpr (whole c mem)
  unfold readLine
  rw [if_neg some_, takeWhile_append_of_pos inside, dropWhile_append_of_pos inside]
  cases tail with
  | nil => simp
  | cons c after =>
    have stops : ¬insideLine c = true := by rw [ends c rfl]; decide
    rw [takeWhile_cons_of_neg stops, dropWhile_cons_of_neg stops, append_nil]

theorem readLine_none {input : Bytes} : readLine input = none ↔ input = [] := by
  unfold readLine
  split
  · simp [*]
  · simp [*]

theorem readLine_some {input : Bytes} (read : readLine input = some (line, rest)) :
    Whole line ∧ ((∃ ending : LineEnd, input = line ++ (ending.bytes ++ rest)) ∨ rest = [] ∧ input = line ∧ line ≠ []) := by
  unfold readLine at read
  split at read
  · cases read
  rename_i filled
  rw [Option.some.injEq, Prod.mk.injEq] at read
  obtain ⟨taken, left⟩ := read
  have parts := takeWhile_append_dropWhile (p := insideLine) (l := input)
  have stops := head?_dropWhile_not insideLine input
  rw [taken] at parts
  constructor
  · intro c mem
    rw [← taken] at mem
    exact insideLine_iff.mp (mem_takeWhile_imp mem)
  generalize input.dropWhile insideLine = tail at left parts stops
  fun_cases skipLineEnd tail with
  | case1 after => exact .inl ⟨.crlf, by rw [← parts, ← left]; rfl⟩
  | case2 c after other =>
    have ends : c = 0x0D ∨ c = 0x0A := by
      by_contra both
      rw [not_or] at both
      have passes := insideLine_iff.mpr both
      simp [passes] at stops
    have behind : skipLineEnd (c :: after) = after := skipLineEnd.eq_2 c after other
    rcases ends with rfl | rfl
    · exact .inl ⟨.cr, by rw [← parts, ← left, behind]; rfl⟩
    · exact .inl ⟨.lf, by rw [← parts, ← left]; rfl⟩
  | case3 =>
    rw [append_nil] at parts
    exact .inr ⟨left.symm, parts.symm, by rw [parts]; exact filled⟩

theorem readLine_shorter {input : Bytes} (read : readLine input = some (line, rest)) : rest.length < input.length := by
  obtain ⟨-, ⟨ending, is⟩ | ⟨rfl, rfl, filled⟩⟩ := readLine_some read
  · rw [is]
    cases ending <;> simp [LineEnd.bytes] <;> omega
  · exact length_pos_iff.mpr filled

/-- The lines that `ReadLine` takes from an input one after the other. -/
def lines (input : Bytes) : List Bytes :=
  match read : readLine input with
  | none => []
  | some (line, rest) => line :: lines rest
termination_by input.length
decreasing_by exact readLine_shorter read

theorem lines_nil : lines [] = [] := by
  unfold lines
  rfl

theorem lines_read {input : Bytes} (read : readLine input = some (line, rest)) : lines input = line :: lines rest := by
  conv => lhs; unfold lines
  split
  · rename_i none_
    rw [read] at none_
    cases none_
  · rename_i some_
    rw [read] at some_
    cases some_
    rfl

theorem lines_written (input : Bytes) : Written True (lines input) input ∧ ∀ line ∈ lines input, Whole line := by
  induction length : input.length using Nat.strong_induction_on generalizing input with
  | _ length' ih =>
    cases read : readLine input with
    | none =>
      rw [readLine_none.mp read, lines_nil]
      exact ⟨.nil, by simp⟩
    | some result =>
      obtain ⟨line, rest⟩ := result
      obtain ⟨whole, form⟩ := readLine_some read
      obtain ⟨written, others⟩ := ih rest.length (by rw [← length]; exact readLine_shorter read) rest rfl
      rw [lines_read read]
      constructor
      · rcases form with ⟨ending, is⟩ | ⟨none_, same, filled⟩
        · rw [is]
          exact .cons line ending written
        · rw [none_, lines_nil, same]
          exact .last line True.intro filled
      · intro s mem
        rcases mem_cons.mp mem with rfl | mem
        · exact whole
        · exact others s mem

theorem lines_thinned {ls : List Bytes} {text : Bytes} {unended : Prop} (written : Written unended ls text)
    (whole : ∀ line ∈ ls, Whole line) :
    Thinned ls (lines text) ∧ ∀ after, text = 0x0A :: after → Thinned ls (lines after) := by
  induction written with
  | nil =>
    rw [lines_nil]
    exact ⟨.nil, fun after impossible => by cases impossible⟩
  | cons line ending more ih =>
    rename_i rest text
    obtain ⟨thin, shorter⟩ := ih fun s mem => whole s (mem_cons_of_mem _ mem)
    have here := whole line (by simp)
    have nonempty : line ++ (ending.bytes ++ text) ≠ [] := by cases ending <;> simp [LineEnd.bytes]
    have ends : ∀ c, (ending.bytes ++ text).head? = some c → insideLine c = false := by
      intro c first
      cases ending with
      | lf => rw [← Option.some.inj first]; decide
      | cr => rw [← Option.some.inj first]; decide
      | crlf => rw [← Option.some.inj first]; decide
    constructor
    · rw [lines_read (readLine_front here ends nonempty)]
      cases ending with
      | lf => exact .keep line thin
      | crlf => exact .keep line thin
      | cr =>
        by_cases merged : ∃ after, text = 0x0A :: after
        · obtain ⟨after, rfl⟩ := merged
          exact .keep line (shorter after rfl)
        have behind : skipLineEnd (LineEnd.cr.bytes ++ text) = text :=
          skipLineEnd.eq_2 0x0D text fun after _ is => merged ⟨after, is⟩
        rw [behind]
        exact .keep line thin
    · intro after is
      cases line with
      | cons c others =>
        have first : c = 0x0A := (cons.inj is).1
        exact absurd first (here c (by simp)).2
      | nil =>
        cases ending with
        | lf =>
          have same : text = after := (cons.inj is).2
          rw [← same]
          exact .drop thin
        | cr => exact absurd (cons.inj is).1 (by decide)
        | crlf => exact absurd (cons.inj is).1 (by decide)
  | last line allowed filled =>
    have here := whole line (by simp)
    have read : readLine line = some (line, []) := by
      have front : readLine (line ++ []) = some (line, skipLineEnd []) :=
        readLine_front here (by simp) (by simpa using filled)
      rw [append_nil] at front
      exact front
    constructor
    · rw [lines_read read, lines_nil]
      exact .keep line .nil
    · intro after is
      exact absurd rfl (here 0x0A (by rw [is]; simp)).2

end

section

variable (options : PemParseOptions)

theorem parseLoop_lines {fuel : Nat} {input : Bytes} {state : ParseState} (enough : input.length ≤ fuel) :
    parseLoop options fuel input state = (lines input).foldlM (acceptLine options) state := by
  induction fuel generalizing input state with
  | zero =>
    rw [length_eq_zero_iff.mp (Nat.le_zero.mp enough), lines_nil]
    rfl
  | succ fuel ih =>
    unfold parseLoop
    cases read : readLine input with
    | none =>
      rw [readLine_none.mp read, lines_nil]
      rfl
    | some result =>
      have shorter := readLine_shorter read
      rw [lines_read read]
      dsimp only
      congr 1
      funext next
      exact ih (by omega)

end

end NginBase.Crypto.Pem
