import NginBase.Text.Utf8

namespace NginBase.IO

structure Path where
  view : Bytes
deriving DecidableEq

namespace Path

def isSeparator (c : UInt8) : Bool := c == 0x2F || c == 0x5C

def isAlpha (c : UInt8) : Bool := (0x41 ≤ c && c ≤ 0x5A) || (0x61 ≤ c && c ≤ 0x7A)

def isDrivePrefix : Bytes → Bool
  | letter :: colon :: _ => isAlpha letter && colon == 0x3A
  | _ => false

def dot : Bytes := [0x2E]

def dotDot : Bytes := [0x2E, 0x2E]

def root : Path := ⟨[0x2F]⟩

def isEmpty (path : Path) : Bool := path.view.isEmpty

def isAbsolute (path : Path) : Bool :=
  if isDrivePrefix path.view then (path.view[2]?).any isSeparator else (path.view.head?).any isSeparator

/-- The loop over the segments of a text that does not start with a separator. -/
def scanSegments : Nat → Bytes → List Bytes
  | 0, _ => []
  | fuel + 1, view =>
    match view with
    | [] => []
    | _ :: _ =>
      view.takeWhile (!isSeparator ·) ::
        scanSegments fuel ((view.dropWhile (!isSeparator ·)).dropWhile isSeparator)

def pushSegment (absolute : Bool) (segments : List Bytes) (segment : Bytes) : List Bytes :=
  if segment = [] ∨ segment = dot then segments
  else if segment = dotDot then
    if segments ≠ [] ∧ segments.getLast? ≠ some dotDot then segments.dropLast
    else if absolute then segments
    else segments ++ [segment]
  else segments ++ [segment]

/-- The segments written out after `normalized`, the first of them at index `i`. -/
def appendSegments (absolute : Bool) : Nat → Bytes → List Bytes → Bytes
  | _, normalized, [] => normalized
  | i, normalized, segment :: rest =>
    let separated :=
      if (0 < i ∨ absolute) ∧ normalized ≠ [] ∧ normalized.getLast? ≠ some 0x2F then normalized ++ [0x2F] else normalized
    appendSegments absolute (i + 1) (separated ++ segment) rest

def lexicallyNormal (path : Path) : Path :=
  let view := path.view
  if view = [] then path
  else
    let drive := if isDrivePrefix view then view.take 2 else []
    let rest := view.drop drive.length
    let absolute := (rest.head?).any isSeparator
    let body := rest.dropWhile isSeparator
    let segments := (scanSegments body.length body).foldl (pushSegment absolute) []
    ⟨appendSegments absolute 0 (drive ++ if absolute then [0x2F] else []) segments⟩

def startsWith (path start : Path) : Bool :=
  start.view.isEmpty ||
    (start.view.isPrefixOf path.view &&
      (start.view.length == path.view.length || (path.view[start.view.length]?).any isSeparator ||
        (start.view.getLast?).any isSeparator))

def join (path : Path) (segment : Bytes) : Path :=
  if segment = [] then path
  else if path.view ≠ [] ∧ ¬ (path.view.getLast?).any isSeparator then ⟨path.view ++ [0x2F] ++ segment⟩
  else ⟨path.view ++ segment⟩

def filename (path : Path) : Bytes := (path.view.rdropWhile isSeparator).rtakeWhile (!isSeparator ·)

def parent (path : Path) : Path :=
  let view := path.view
  let trimmed := view.rdropWhile isSeparator
  if view = [] then ⟨[]⟩
  else if trimmed = [] then ⟨view.take 1⟩
  else
    let start := (trimmed.rdropWhile (!isSeparator ·)).length
    if start = 0 then
      if isDrivePrefix view then if (view[2]?).any isSeparator then ⟨view.take 3⟩ else ⟨view.take 2⟩
      else if (view.head?).any isSeparator then root
      else ⟨[]⟩
    else
      let minimumParentEnd :=
        if isDrivePrefix view && (view[2]?).any isSeparator then 3 else if (view.head?).any isSeparator then 1 else 0
      ⟨view.take (max minimumParentEnd ((view.take start).rdropWhile isSeparator).length)⟩

end Path

end NginBase.IO
