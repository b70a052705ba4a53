import NginBase.Json.Lexer
import NginBase.Library.Simulation

namespace NginBase.Json

open Library

/-! String tokens and the memory they are decoded into. The document parser and the event parser
share this code up to the text of one message. -/

/-- The storage a string view points into. A scratch pointer remembers how often the scratch
    storage had moved when it was made. -/
inductive Region
  | source
  | arena
  | scratch (moves : Nat)
  deriving DecidableEq

structure StringRef where
  region : Region := .source
  start : Nat := 0
  size : Nat := 0

structure Memory where
  source : Bytes
  arena : Bytes := []
  scratch : ParseScratch := {}

namespace Memory

def bytes (m : Memory) : Region → Bytes
  | .source => m.source
  | .arena => m.arena
  -- a pointer from before the last move dangles
  | .scratch moves => if moves = m.scratch.moves then m.scratch.bytes else []

def view (m : Memory) (ref : StringRef) : Bytes := ((m.bytes ref.region).drop ref.start).take ref.size

def write (m : Memory) (region : Region) (start : Nat) (cells : Bytes) : Memory :=
  match region with
  | .source => { m with source := overwrite m.source start cells }
  | .arena => { m with arena := overwrite m.arena start cells }
  | .scratch _ => { m with scratch := { m.scratch with bytes := overwrite m.scratch.bytes start cells } }

end Memory

structure ParsedString where
  value : StringRef
  span : SourceSpan

/-- The mutable part of a parse that reading tokens touches. -/
structure Reader where
  memory : Memory
  offset : Nat := 0
  decodedBytes : Nat := 0
  requests : Nat := 0

namespace Reader

variable (setup : Setup)

def cursor (r : Reader) : Cursor := ⟨r.offset, r.memory.source.drop r.offset⟩

def errorAt (r : Reader) (code : ParseErrorCode) (message : String) (first last : Nat) : Failure :=
  .diagnostic (makeErrorAt setup.source r.memory.source code message first last)

def errorHere (r : Reader) (code : ParseErrorCode) (message : String) : Failure :=
  r.errorAt setup code message r.offset r.offset

def located (r : Reader) : Failure → Failure
  | .diagnostic d => .diagnostic { d with location := locate r.memory.source d.span.first }
  | .fuel => .fuel

def lex {α : Type} (r : Reader) (read : Cursor → Except Failure (α × Cursor)) : Except Failure (α × Reader) :=
  match read r.cursor with
  | .error e => .error (r.located e)
  | .ok (a, c) => .ok (a, { r with offset := c.offset })

/-- One request to an allocator or a container that may throw `std::bad_alloc`. -/
def request (r : Reader) : Bool × Reader :=
  (setup.resources.grants r.requests, { r with requests := r.requests + 1 })

/-- The output of the decode loop: in place, in the scratch storage or in the arena. -/
def allocateOutput (r : Reader) (tokenStart rawLength : Nat) : Option (Region × Nat × Reader) :=
  match setup.ownership with
  | .inSitu => some (.source, tokenStart + 1, r)
  | .borrowed =>
    let (granted, r) := r.request setup
    (r.memory.scratch.tryAllocate rawLength granted).map fun (start, scratch) =>
      (.scratch scratch.moves, start, { r with memory := { r.memory with scratch } })
  | .owned =>
    let (granted, r) := r.request setup
    if rawLength ≠ 0 ∧ granted then
      some (.arena, r.memory.arena.length,
        { r with memory := { r.memory with arena := r.memory.arena ++ List.replicate rawLength 0 } })
    else none

/-- The decode loop of `ParseString`: reads the source from `start` on and writes to the output. -/
def decodeTo (r : Reader) (start rawLength : Nat) (region : Region) (output : Nat) :
    Except (LexError × Memory) (Memory × Nat) :=
  transduce (fun m => m.source.drop start) (fun m written cells => m.write region (output + written) cells)
    (decodeStep rawLength) rawLength r.memory 0 rawLength 0

/-- `ParseString`; `refused` is the message of a failed allocation. -/
def parseString (refused : String) (r : Reader) : Except Failure (ParsedString × Reader) := do
  let (token, r) ← r.lex (Cursor.scanString setup.toProfile)
  let start := token.first + 1
  let rawLength := token.raw.length
  let span := token.span setup.toProfile
  if token.escaped = false then return (⟨⟨.source, start, rawLength⟩, span⟩, r)
  else if setup.limits.maxDecodedStringBytes < r.decodedBytes ∨
      setup.limits.maxDecodedStringBytes - r.decodedBytes < rawLength then
    throw (r.errorAt setup .limitExceeded "Decoded JSON string limit exceeded" token.first span.last)
  else
    match r.allocateOutput setup token.first rawLength with
    | none => throw (r.errorAt setup .outOfMemory refused token.first span.last)
    | some (region, output, r) =>
      match r.decodeTo start rawLength region output with
      | .error (e, memory) => throw ({ r with memory }.located (Cursor.lexError setup.toProfile token.first e))
      | .ok (memory, size) =>
        return (⟨⟨region, output, size⟩, span⟩, { r with memory, decodedBytes := r.decodedBytes + size })

end Reader

end NginBase.Json
