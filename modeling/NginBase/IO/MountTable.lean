import NginBase.IO.LocalMounts
import NginBase.IO.RelativePaths

namespace NginBase.IO.Path

open List

section

variable {d : Bytes} {names : List Bytes}

/-- An absolute path as it is written when it is normalised. -/
structure Written (path : Path) (d : Bytes) (names : List Bytes) : Prop where
  isDrive : IsDrive d
  named : (⟨0, names⟩ : Location).Named
  is : path = ⟨text d true names⟩

theorem Written.clean {path : Path} (written : Written path d names) : ∀ s ∈ names, Clean s :=
  Location.stack_clean true written.named

theorem Written.normal {path : Path} (written : Written path d names) : path.lexicallyNormal = path := by
  rw [written.is]
  exact normal_of_plain written.isDrive written.named plain_rooted

theorem exists_written (path : Path) (absolute : path.lexicallyNormal.isAbsolute = true) :
    ∃ d names, Written path.lexicallyNormal d names := by
  have named := location_named path.view
  have isDrive := drive_isDrive path.view
  rw [lexicallyNormal_eq] at absolute ⊢
  cases rooted_ : rooted path.view with
  | true => exact ⟨_, _, isDrive, named, rfl⟩
  | false =>
    rw [rooted_, isAbsolute_eq] at absolute
    have clean := Location.stack_clean false named
    by_cases plain : Plain (drive path.view) false ((location path.view).stack false)
    · rw [rooted_text isDrive clean plain] at absolute
      cases absolute
    -- what is read for a drive was a name
    obtain ⟨driveless, -, letter, rest, more, alpha, stacked⟩ := segments_of_not_plain plain
    rw [driveless] at absolute ⊢
    rw [stacked] at absolute clean ⊢
    have drive' : IsDrive [letter, 0x3A] := .inr ⟨letter, alpha, rfl⟩
    have tail : ∀ s ∈ more, Clean s := fun s mem => clean s (mem_cons_of_mem _ mem)
    have level : (location path.view).ups = 0 := by
      cases ups : (location path.view).ups with
      | zero => rfl
      | succ ups => simp [Location.stack, ups, replicate_succ, dotDot] at stacked
    have names : (location path.view).names = (letter :: 0x3A :: rest) :: more := by
      simpa [Location.stack, level] using stacked
    have named' : (⟨0, more⟩ : Location).Named := by
      intro name mem
      apply named
      rw [names]
      exact mem_cons_of_mem _ mem
    by_cases none : rest = []
    · subst none
      by_cases last : more = []
      · subst last
        have bare : text [] false [[letter, 0x3A]] = text [letter, 0x3A] false [] := by simp [text, joined]
        rw [bare, rooted_text drive' tail plain_of_drive] at absolute
        cases absolute
      · exact ⟨_, _, drive', named', by rw [text_drive_root last]⟩
    · rw [text_drive_name, rooted_text drive' (clean_afterDrive clean none) plain_of_drive] at absolute
      cases absolute

theorem Written.of_starts {start path : Path} (written : Written start d names) (starts : path.startsWith start = true) :
    Path.drive path.view = d ∧ path.isAbsolute = true := by
  have some_ : start.view ≠ [] := by
    rw [written.is]
    simp [text]
  have filled : start.view.isEmpty = false := by simpa using some_
  simp only [startsWith, filled, Bool.false_or, Bool.and_eq_true] at starts
  obtain ⟨tail, whole⟩ := isPrefixOf_iff_prefix.mp starts.1
  have separator : isSeparator 0x2F = true := by decide
  have view : path.view = d ++ 0x2F :: (joined names ++ tail) := by
    rw [← whole, written.is]
    simp [text]
  have drive_ : Path.drive path.view = d := by rw [view, drive_separator written.isDrive separator]
  refine ⟨drive_, ?_⟩
  rw [isAbsolute_eq, rooted, drive_, view, drop_left]
  exact separator

theorem drop_text (clean : ∀ s ∈ names, Clean s) {more : List Bytes} (tidy : ∀ s ∈ more, Clean s) :
    ((text d true (names ++ more)).drop (text d true names).length).dropWhile isSeparator = joined more := by
  cases names with
  | nil =>
    have whole : text d true ([] ++ more) = text d true [] ++ joined more := by simp [text, joined]
    rw [whole, drop_left, dropWhile_joined tidy]
  | cons name others =>
    have whole : text d true (name :: others ++ more) = text d true (name :: others) ++ more.flatMap (0x2F :: ·) := by
      unfold text
      rw [joined_append]
      simp only [append_assoc]
    rw [whole, drop_left]
    cases more with
    | nil => rfl
    | cons next rest =>
      have behind : (next :: rest).flatMap (0x2F :: ·) = 0x2F :: joined (next :: rest) := by simp [joined]
      rw [behind, dropWhile_cons_of_pos (by decide), dropWhile_joined tidy]

end

end NginBase.IO.Path

namespace NginBase.IO.LocalMount

open Path Library Library.Dialogue

section

abbrev Canonicalizing := Dialogue Path (fun _ => Except IOError Path) IOError

def weaklyCanonical (path : Path) : Canonicalizing Path := .ask path .done

def virtualize (mount : LocalMount) (realPath : Path) : Canonicalizing Path := do
  let normalized := realPath.lexicallyNormal
  let (normalized, root) ←
    if normalized.startsWith mount.realRoot then pure (normalized, mount.realRoot)
    else do
      let canonicalPath ← weaklyCanonical normalized
      let canonicalRoot ← weaklyCanonical mount.realRoot
      if !canonicalPath.startsWith canonicalRoot then
        fail (makeError .invalidPath "real path is outside mount root" realPath)
      else pure (canonicalPath, canonicalRoot)
  let suffix := (normalized.view.drop root.view.length).dropWhile isSeparator
  pure (mount.mountPoint.virtualPrefix.join suffix).lexicallyNormal

variable {mount : LocalMount} {d e : Bytes} {names others : List Bytes}

/-- A mount whose root and prefix are absolute, as its constructor leaves them. -/
structure Rooted (mount : LocalMount) (d : Bytes) (names : List Bytes) (e : Bytes) (others : List Bytes) : Prop where
  root : Written mount.realRoot d names
  start : Written mount.mountPoint.virtualPrefix e others

theorem exists_rooted {realRoot : Path} {mountPoint : MountPoint} (absolute : (make realRoot mountPoint).realRoot.isAbsolute = true)
    (absolute' : (make realRoot mountPoint).mountPoint.virtualPrefix.isAbsolute = true) :
    ∃ d names e others, (make realRoot mountPoint).Rooted d names e others := by
  obtain ⟨d, names, root⟩ := exists_written realRoot absolute
  obtain ⟨e, others, start⟩ := exists_written _ absolute'
  exact ⟨d, names, e, others, root, start⟩

theorem Rooted.translate (rooted : mount.Rooted d names e others) {v : Path} (resolves : mount.canResolve v = true) :
    ∃ more, Written v.lexicallyNormal e (others ++ more) ∧ Written ⟨text d true (names ++ more)⟩ d (names ++ more) ∧
      mount.translate v = .ok ⟨text d true (names ++ more)⟩ := by
  obtain ⟨drive_, absolute⟩ := rooted.start.of_starts resolves
  obtain ⟨e', all, written⟩ := exists_written v absolute
  have same : e' = e := by
    rw [← drive_, written.is]
    exact (drive_text written.isDrive written.clean plain_rooted).symm
  subst same
  have starts := resolves
  unfold canResolve at starts
  rw [written.is, rooted.start.is] at starts
  obtain ⟨more, rfl⟩ := startsWith_parts rooted.start.clean written.clean starts
  have named : (⟨0, names ++ more⟩ : Location).Named := by
    intro name mem
    rcases List.mem_append.mp mem with mem | mem
    · exact rooted.root.named name mem
    · exact written.named name (List.mem_append_right _ mem)
  have tidy : ∀ s ∈ more, Clean s := fun s mem => written.clean s (List.mem_append_right _ mem)
  have written' : Written ⟨text d true (names ++ more)⟩ d (names ++ more) := ⟨rooted.root.isDrive, named, rfl⟩
  refine ⟨more, written, written', translate_ok.mpr ⟨resolves, ?_, ?_⟩⟩
  · rw [remainder, written.is, rooted.start.is]
    rw [drop_text rooted.start.clean tidy, rooted.root.is,
      join_joined rooted.root.isDrive rooted.root.clean (.inl rfl) more tidy, written'.normal]
  · rw [rooted.root.is]
    exact startsWith_text rooted.root.clean (.inl rfl) more

theorem Rooted.virtualize (rooted : mount.Rooted d names e others) {more : List Bytes}
    (written : Written ⟨text d true (names ++ more)⟩ d (names ++ more)) (written' : Written ⟨text e true (others ++ more)⟩ e (others ++ more)) :
    mount.virtualize ⟨text d true (names ++ more)⟩ = .done (.ok ⟨text e true (others ++ more)⟩) := by
  have tidy : ∀ s ∈ more, Clean s := fun s mem => written.clean s (List.mem_append_right _ mem)
  have starts := startsWith_text (d := d) rooted.root.clean (.inl rfl) more
  unfold LocalMount.virtualize
  rw [written.normal, rooted.root.is, rooted.start.is, if_pos starts]
  show Dialogue.done (.ok (Path.lexicallyNormal _)) = _
  rw [drop_text rooted.root.clean tidy, join_joined rooted.start.isDrive rooted.start.clean (.inl rfl) more tidy, written'.normal]

/-- A path that a mount can resolve is translated, and what it is translated to is virtualised to its normal form without
    a question to the real file system; so paths with the same translation have the same normal form. -/
theorem virtualize_translate (realRoot : Path) (mountPoint : MountPoint)
    (absolute : (make realRoot mountPoint).realRoot.isAbsolute = true)
    (absolute' : (make realRoot mountPoint).mountPoint.virtualPrefix.isAbsolute = true) :
    let mount := make realRoot mountPoint
    (∀ v, mount.canResolve v = true →
      ∃ out, mount.translate v = .ok out ∧ mount.virtualize out = .done (.ok v.lexicallyNormal)) ∧
    ∀ v w, mount.canResolve v = true → mount.canResolve w = true → mount.translate v = mount.translate w →
      v.lexicallyNormal = w.lexicallyNormal := by
  intro mount
  obtain ⟨d, names, e, others, rooted⟩ := exists_rooted absolute absolute'
  have back : ∀ v, mount.canResolve v = true →
      ∃ out, mount.translate v = .ok out ∧ mount.virtualize out = .done (.ok v.lexicallyNormal) := by
    intro v resolves
    obtain ⟨more, written, written', translated⟩ := rooted.translate resolves
    have is := written.is
    rw [is] at written
    refine ⟨_, translated, ?_⟩
    rw [is]
    exact rooted.virtualize written' written
  refine ⟨back, ?_⟩
  intro v w resolves resolves' same
  obtain ⟨out, translated, virtualized⟩ := back v resolves
  obtain ⟨out', translated', virtualized'⟩ := back w resolves'
  rw [translated, translated'] at same
  cases same
  exact Except.ok.inj (Dialogue.done.inj (virtualized.symm.trans virtualized'))

theorem virtualize_translate_data :
    let mount := make ⟨[0x43, 0x3A, 0x2F, 0x64]⟩ { virtualPrefix := ⟨[0x2F, 0x64, 0x61, 0x74, 0x61]⟩ }
    ∃ out, mount.translate ⟨[0x2F, 0x64, 0x61, 0x74, 0x61, 0x2F, 0x78]⟩ = .ok out ∧
      mount.virtualize out = .done (.ok ⟨[0x2F, 0x64, 0x61, 0x74, 0x61, 0x2F, 0x78]⟩) :=
  (virtualize_translate ⟨[0x43, 0x3A, 0x2F, 0x64]⟩ { virtualPrefix := ⟨[0x2F, 0x64, 0x61, 0x74, 0x61]⟩ } (by decide) (by decide)).1
    ⟨[0x2F, 0x64, 0x61, 0x74, 0x61, 0x2F, 0x78]⟩ (by decide)

end

end NginBase.IO.LocalMount

namespace NginBase.IO

section

/-- The table that calls of `AddMount` leave, whatever permutation each sort has chosen. -/
inductive Registered (mounts : MountId → Mount) : List MountId → List MountId → Prop
  | empty : Registered mounts [] []
  | addMount {order table : List MountId} (before : Registered mounts order table) (mount : MountId) (next : List MountId)
      (permutation : next.Perm (table ++ [mount]))
      (sorted : next.Pairwise fun a b => ¬ prefixCompare (mounts b).point (mounts a).point) :
      Registered mounts (order ++ [mount]) next

variable {mounts : MountId → Mount} {order table : List MountId}

theorem Registered.perm (registered : Registered mounts order table) : table.Perm order := by
  induction registered with
  | empty => exact .nil
  | addMount before mount next permutation sorted hyp => exact permutation.trans (hyp.append_right [mount])

theorem Registered.sorted (registered : Registered mounts order table) :
    table.Pairwise fun a b => ¬ prefixCompare (mounts b).point (mounts a).point := by
  cases registered with
  | empty => exact .nil
  | addMount before mount next permutation sorted => exact sorted

theorem not_prefixCompare {a b : MountPoint} (le : ¬ prefixCompare b a) :
    b.virtualPrefix.view.length ≤ a.virtualPrefix.view.length ∧
      (a.virtualPrefix.view.length = b.virtualPrefix.view.length →
        b.priority ≤ a.priority ∧ (a.priority = b.priority → a.virtualPrefix.view ≤ b.virtualPrefix.view)) := by
  unfold prefixCompare at le
  by_cases long : b.virtualPrefix.view.length ≠ a.virtualPrefix.view.length
  · rw [if_pos long, decide_eq_true_eq] at le
    exact ⟨by omega, fun same => absurd same.symm long⟩
  rw [if_neg long] at le
  refine ⟨by omega, fun _ => ?_⟩
  by_cases level : b.priority ≠ a.priority
  · rw [if_pos level, decide_eq_true_eq] at le
    exact ⟨by omega, fun same => absurd same.symm level⟩
  · rw [if_neg level, decide_eq_true_eq] at le
    exact ⟨by omega, fun _ => List.not_lt.mp le⟩

theorem prefixCompare_antisymm {a b : MountPoint} (le : ¬ prefixCompare b a) (ge : ¬ prefixCompare a b) :
    (a.virtualPrefix, a.priority) = (b.virtualPrefix, b.priority) := by
  obtain ⟨shorter, le⟩ := not_prefixCompare le
  obtain ⟨longer, ge⟩ := not_prefixCompare ge
  have long := Nat.le_antisymm longer shorter
  obtain ⟨lower, le⟩ := le long
  obtain ⟨higher, ge⟩ := ge long.symm
  have level := Int.le_antisymm higher lower
  have view := List.le_antisymm (le level) (ge level.symm)
  have same : a.virtualPrefix = b.virtualPrefix := by
    cases ha : a.virtualPrefix
    cases hb : b.virtualPrefix
    rw [ha, hb] at view
    exact congrArg Path.mk view
  rw [same, level]

def Distinct (mounts : MountId → Mount) (order : List MountId) : Prop :=
  (order.map fun mount => ((mounts mount).point.virtualPrefix, (mounts mount).point.priority)).Nodup

/-- The mount that is the one for a path, whatever the table looks like. -/
structure Preferred (mounts : MountId → Mount) (order : List MountId) (path : Path) (mount : MountId) : Prop where
  mem : mount ∈ order
  resolves : (mounts mount).canResolve path = true
  longest : ∀ other ∈ order, (mounts other).canResolve path = true →
    (mounts other).point.virtualPrefix.view.length ≤ (mounts mount).point.virtualPrefix.view.length
  highest : ∀ other ∈ order, (mounts other).canResolve path = true →
    (mounts other).point.virtualPrefix = (mounts mount).point.virtualPrefix →
    (mounts other).point.priority ≤ (mounts mount).point.priority

theorem resolvePath_find (table : List MountId) (path : Path) : resolvePath mounts table path =
      match table.find? fun mount => (mounts mount).canResolve path with
      | some mount => ((mounts mount).translate path).map (mount, ·)
      | none => .error (makeError .notFound "no mount for virtual path" path) := by
  induction table with
  | nil => rfl
  | cons mount rest hyp =>
    unfold resolvePath
    rw [List.find?_cons]
    cases resolves : (mounts mount).canResolve path with
    | true =>
      dsimp only
      cases (mounts mount).translate path <;> rfl
    | false =>
      rw [if_neg (by decide), hyp]

theorem Registered.eq {order' table' : List MountId} (registered : Registered mounts order table)
    (registered' : Registered mounts order' table') (same : order.Perm order') (distinct : Distinct mounts order) :
    table = table' := by
  have perm : table.Perm table' := registered.perm.trans (same.trans registered'.perm.symm)
  refine List.Perm.eq_of_pairwise ?_ registered.sorted registered'.sorted perm
  intro a b mem mem' le ge
  apply List.inj_on_of_nodup_map distinct (registered.perm.mem_iff.mp mem)
    (same.mem_iff.mpr (registered'.perm.mem_iff.mp mem'))
  exact prefixCompare_antisymm le ge

theorem Registered.preferred (registered : Registered mounts order table) {path : Path} {mount : MountId}
    (found : table.find? (fun mount => (mounts mount).canResolve path) = some mount) :
    Preferred mounts order path mount := by
  obtain ⟨resolves, before, behind, split, unable⟩ := List.find?_eq_some_iff_append.mp found
  have sorted := registered.sorted
  rw [split, List.pairwise_append, List.pairwise_cons] at sorted
  have least : ∀ other ∈ order, (mounts other).canResolve path = true →
      other = mount ∨ ¬ prefixCompare (mounts other).point (mounts mount).point := by
    intro other mem able
    have mem := registered.perm.mem_iff.mpr mem
    rw [split] at mem
    rcases List.mem_append.mp mem with mem | mem
    · have := unable other mem
      rw [able] at this
      cases this
    · rcases List.mem_cons.mp mem with is | mem
      · exact .inl is
      · exact .inr (sorted.2.1.1 other mem)
  refine ⟨registered.perm.mem_iff.mp (List.mem_of_find?_eq_some found), resolves, ?_, ?_⟩
  · intro other mem able
    rcases least other mem able with rfl | le
    · exact Nat.le_refl _
    · exact (not_prefixCompare le).1
  · intro other mem able same
    rcases least other mem able with rfl | le
    · exact Int.le_refl _
    · exact ((not_prefixCompare le).2 (by rw [same])).1

end

namespace LocalMount

section

variable (locals : MountId → LocalMount)

theorem prefix_eq {a b : LocalMount} {path : Path} (resolves : a.canResolve path = true) (resolves' : b.canResolve path = true)
    (long : a.mountPoint.virtualPrefix.view.length = b.mountPoint.virtualPrefix.view.length) :
    a.mountPoint.virtualPrefix = b.mountPoint.virtualPrefix := by
  have starts : ∀ {mount : LocalMount}, mount.canResolve path = true →
      mount.mountPoint.virtualPrefix.view <+: path.lexicallyNormal.view := by
    intro mount resolves
    simp only [canResolve, Path.startsWith, Bool.or_eq_true, Bool.and_eq_true, List.isEmpty_iff, List.isPrefixOf_iff_prefix]
      at resolves
    rcases resolves with empty | matched
    · rw [empty]
      exact List.nil_prefix
    · exact matched.1
  have view := List.prefix_of_prefix_length_le (starts resolves) (starts resolves') long.le |>.eq_of_length long
  cases ha : a.mountPoint.virtualPrefix
  cases hb : b.mountPoint.virtualPrefix
  rw [ha, hb] at view
  exact congrArg Path.mk view

/-- Two orders of registration resolve every path alike: by the only mount that has the longest prefix and, among those
    with that prefix, the highest priority, if there is one that can resolve the path at all. -/
theorem resolvePath_registered {order order' table table' : List MountId} (distinct : Distinct (fun id => (locals id).mount) order)
    (same : order.Perm order') (registered : Registered (fun id => (locals id).mount) order table)
    (registered' : Registered (fun id => (locals id).mount) order' table') (path : Path) :
    resolvePath (fun id => (locals id).mount) table path = resolvePath (fun id => (locals id).mount) table' path ∧
      ((∃ chosen, (∀ mount, Preferred (fun id => (locals id).mount) order path mount ↔ mount = chosen) ∧
          resolvePath (fun id => (locals id).mount) table path = ((locals chosen).translate path).map (chosen, ·)) ∨
        ((∀ mount ∈ order, (locals mount).canResolve path = false) ∧
          resolvePath (fun id => (locals id).mount) table path =
            .error (makeError .notFound "no mount for virtual path" path))) := by
  refine ⟨by rw [registered.eq registered' same distinct], ?_⟩
  rw [resolvePath_find]
  cases found : table.find? fun mount => (locals mount).mount.canResolve path with
  | none =>
    rw [List.find?_eq_none] at found
    refine .inr ⟨?_, rfl⟩
    intro mount mem
    exact Bool.eq_false_of_not_eq_true (found mount (registered.perm.mem_iff.mpr mem))
  | some chosen =>
    have preferred := registered.preferred found
    refine .inl ⟨chosen, ?_, rfl⟩
    intro mount
    constructor
    · intro other
      have long := Nat.le_antisymm (preferred.longest mount other.mem other.resolves)
        (other.longest chosen preferred.mem preferred.resolves)
      have start := prefix_eq other.resolves preferred.resolves long
      have level := Int.le_antisymm (preferred.highest mount other.mem other.resolves start)
        (other.highest chosen preferred.mem preferred.resolves start.symm)
      exact List.inj_on_of_nodup_map distinct other.mem preferred.mem (Prod.ext start level)
    · rintro rfl
      exact preferred

theorem resolvePath_registered_both :
    let locals (id : MountId) := make ⟨[0x2F, 0x64]⟩ { virtualPrefix := if id = 0 then Path.root else ⟨[0x2F, 0x61]⟩ }
    resolvePath (fun id => (locals id).mount) [1, 0] ⟨[0x2F, 0x61, 0x2F, 0x78]⟩ = .ok (1, ⟨[0x2F, 0x64, 0x2F, 0x78]⟩) ∧
      ∀ table, Registered (fun id => (locals id).mount) [1, 0] table → ∀ path,
        resolvePath (fun id => (locals id).mount) table path = resolvePath (fun id => (locals id).mount) [1, 0] path := by
  intro locals
  have one : Registered (fun id => (locals id).mount) [0] [0] := .addMount .empty 0 [0] (.refl _) (List.pairwise_singleton _ _)
  have both : Registered (fun id => (locals id).mount) [0, 1] [1, 0] :=
    .addMount one 1 [1, 0] (List.Perm.swap 0 1 []) (by decide)
  refine ⟨by decide, ?_⟩
  intro table registered path
  exact (resolvePath_registered locals (by unfold Distinct; decide) (List.Perm.swap 0 1 []) registered both path).1

end

end LocalMount

end NginBase.IO
