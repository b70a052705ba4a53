import NginBase.IO.VirtualFileSystem

namespace NginBase.IO

open Library Library.Dialogue

section

variable {σ α : Type} {kind : Kind} {answers : σ → (question : Question) → Answer question → σ → Prop} {s : σ}

@[simp] theorem leaves_forward {post : kind.Carrier → σ → Prop} {failed : Failure → σ → Prop} (mount : MountId)
    (call : Call kind) : Leaves (α := no_index kind.Carrier) answers (forward mount call) s post failed ↔
      (∀ reply s', answers s (.call mount kind call) (.ok reply) s' → post reply s') ∧
        ∀ e s', answers s (.call mount kind call) (.error e) s' → failed (.domain e) s' := by
  constructor
  · intro h
    exact ⟨fun reply s' answered => h (.ok reply) s' answered, fun e s' answered => h (.error e) s' answered⟩
  · intro ⟨good, bad⟩ answer s' answered
    cases answer with
    | ok reply => exact good reply s' answered
    | error e => exact bad e s' answered

theorem leaves_ite {p : Prop} [Decidable p] {post : α → σ → Prop} {failed : Failure → σ → Prop} {x y : Task α} :
    (if p then x else y).Leaves answers s post failed ↔
      (p → x.Leaves answers s post failed) ∧ (¬ p → y.Leaves answers s post failed) := by
  by_cases h : p
  · simp [h]
  · simp [h]

end

/-- What kind of entry there is under a path, without following a last link. -/
abbrev Names := Path → Option EntryType

/-- What the calls of a file system say of its names and make of them. `GetInfo` and removals succeed. Any other call may
    fail, and then changes no name. -/
def Names.Does (s : Names) : (kind : Kind) → (call : Call kind) → Except IOError kind.Carrier → Names → Prop
  | _, .getInfo path { symlinkMode := .doNotFollow }, .ok info, s' =>
    s' = s ∧ info.exists_ = (s path).isSome ∧ ∀ type, s path = some type → info.type = type
  | _, .getInfo _ { symlinkMode := .doNotFollow }, .error _, _ => False
  | _, .removeFile path _, .ok _, s' => s' path = none
  | _, .removeFile _ _, .error _, _ => False
  | _, .removeDirectory path _, .ok _, s' => s' path = none
  | _, .removeDirectory _ _, .error _, _ => False
  | _, .createDirectory path _, .ok _, s' => s' path = some .directory
  | _, .createSymlink _ path, .ok _, s' => s' path = some .symlink
  | _, .openFile path options, .ok _, s' => if options.mutates then s' path ≠ none else s' = s
  | _, .write _ _, .ok _, s' => s' = s
  | _, .setPermissions _ _ _, .ok _, s' => s' = s
  | _, call, .ok _, s' => call.mutates = false → s' = s
  | _, _, .error _, s' => s' = s

def Names.Answers (destination : MountId) (s : Names) : (question : Question) → Answer question → Names → Prop
  | .call mount kind call, answer, s' => if mount = destination then s.Does kind call answer s' else s' = s
  | _, _, s' => s' = s

theorem Names.Answers.reads {destination mount : MountId} {s s' : Names} {kind : Kind} {call : Call kind}
    {answer : Except IOError kind.Carrier} (answered : s.Answers destination (.call mount kind call) answer s')
    (reads : call.mutates = false) : s' = s := by
  unfold Names.Answers at answered
  dsimp only at answered
  split at answered
  · cases answer with
    | error e =>
      cases call with
      | getInfo path options =>
        cases options with
        | mk mode => cases mode <;> first | exact answered | exact answered.elim
      | removeFile => cases reads
      | removeDirectory => cases reads
      | _ => exact answered
    | ok reply =>
      cases call with
      | getInfo path options =>
        cases options with
        | mk mode => cases mode <;> first | exact answered.1 | exact answered reads
      | openFile path options =>
        have closed : options.mutates = false := reads
        simpa [Names.Does, closed] using answered
      | createDirectory => cases reads
      | createSymlink => cases reads
      | removeFile => cases reads
      | removeDirectory => cases reads
      | setPermissions => cases reads
      | write => cases reads
      | _ => exact answered reads
  · exact answered

section

variable {source destination : MountId} {options : CopyOptions} {path sourcePath destinationPath : Path} {kind : Kind}
  {s : Names × Option (Sigma Answer)}

end

section

variable {source destination : MountId} {options : CopyOptions} {sourcePath destinationPath : Path}
  {s : Names × Option (Sigma Answer)} {sourceInfo destinationInfo : FileInfo}

end

section

variable {source destination : MountId} {options : CopyOptions} {sourcePath destinationPath : Path} {s s' : Names}

end

end NginBase.IO
