import Mathlib

namespace Library

open List Nat Option

section

variable {α : Type} {p : α → Bool}

theorem takeWhile_split (p : α → Bool) (l : List α) :
    ∃ run rest, l = run ++ rest ∧ l.takeWhile p = run ∧ (∀ a ∈ run, p a = true) ∧ ∀ a ∈ rest.head?, p a = false := by
  refine ⟨l.takeWhile p, l.dropWhile p, takeWhile_append_dropWhile.symm, rfl, ?_, ?_⟩
  · intro a mem
    exact mem_takeWhile_imp mem
  · intro a first
    have stop := head?_dropWhile_not p l
    rw [mem_def.mp first] at stop
    simpa using stop

theorem takeWhile_stops {run rest : List α} (inside : ∀ a ∈ run, p a = true) (stop : ∀ a ∈ rest.head?, p a = false) :
    (run ++ rest).takeWhile p = run := by
  rw [takeWhile_append_of_pos inside]
  cases rest with
  | nil => simp
  | cons a rest =>
    have outside : p a = false := stop a (by simp)
    simp [outside]

end

section

variable {α : Type} [DecidableEq α]

def find (needle : List α) : List α → Option Nat
  | [] => if needle = [] then some 0 else none
  | head :: rest =>
    if needle <+: head :: rest then some 0
    else (find needle rest).map (· + 1)

variable {needle text : List α}

theorem find_bound {i : Nat} (h : find needle text = some i) : i + needle.length ≤ text.length := by
  induction text generalizing i with
  | nil =>
    unfold find at h
    split at h
    · rename_i empty
      cases h
      simp [empty]
    · cases h
  | cons head rest ih =>
    unfold find at h
    split at h
    · rename_i first
      cases h
      simpa using first.length_le
    · obtain ⟨j, found, rfl⟩ := map_eq_some_iff.mp h
      have := ih found
      simp only [length_cons]
      omega

theorem find_split {i : Nat} (h : find needle text = some i) :
    text = text.take i ++ (needle ++ text.drop (i + needle.length)) := by
  induction text generalizing i with
  | nil =>
    unfold find at h
    split at h
    · rename_i empty
      simp [empty]
    · cases h
  | cons head rest ih =>
    unfold find at h
    split at h
    · rename_i first
      obtain ⟨after, text⟩ := first
      cases h
      rw [← text, take_zero, nil_append, Nat.zero_add, drop_left]
    · obtain ⟨j, found, rfl⟩ := map_eq_some_iff.mp h
      rw [take_succ_cons, cons_append, Nat.add_right_comm, drop_succ_cons, ← ih found]

theorem find_extend {i : Nat} (h : find needle text = some i) (after : List α) : find needle (text ++ after) = some i := by
  induction text generalizing i with
  | nil =>
    unfold find at h
    split at h
    · rename_i empty
      subst empty
      cases after with
      | nil => exact h
      | cons b after => exact (if_pos nil_prefix).trans h
    · cases h
  | cons head rest ih =>
    rw [cons_append]
    unfold find at h ⊢
    split at h
    · rename_i first
      have longer : needle <+: head :: (rest ++ after) := first.trans (prefix_append (head :: rest) after)
      rw [if_pos longer, h]
    · rename_i other
      obtain ⟨j, found, rfl⟩ := map_eq_some_iff.mp h
      have bound := find_bound found
      rw [if_neg, ih found]
      · rfl
      · intro first
        apply other
        apply prefix_of_prefix_length_le first (prefix_append (head :: rest) after)
        rw [length_cons]
        omega

theorem find_shorten {after : List α} {i : Nat} (h : find needle (text ++ after) = some i)
    (inside : i + needle.length ≤ text.length) : find needle text = some i := by
  cases found : find needle text with
  | some j => rw [← h, find_extend found]
  | none =>
    induction text generalizing i with
    | nil =>
      have empty : needle = [] := length_eq_zero_iff.mp (by simp only [length_nil] at inside; omega)
      rw [find, if_pos empty] at found
      cases found
    | cons head rest ih =>
      rw [cons_append] at h
      unfold find at h found
      split at found
      · cases found
      rename_i other
      split at h
      · rename_i first
        exact absurd (prefix_of_prefix_length_le first (prefix_append (head :: rest) after) (by omega)) other
      · obtain ⟨j, later, rfl⟩ := map_eq_some_iff.mp h
        rw [length_cons] at inside
        cases ih later (by omega) (map_eq_none_iff.mp found)

theorem find_none_iff : find needle text = none ↔ ¬ needle <:+: text := by
  induction text with
  | nil =>
    rw [find]
    split
    · rename_i empty
      simp [empty]
    · rename_i other
      simp [other]
  | cons head rest ih =>
    rw [find, infix_cons_iff]
    split
    · rename_i first
      simp [first]
    · rename_i other
      rw [map_eq_none_iff, ih, not_or]
      exact (and_iff_right other).symm

theorem find_prefix (after : List α) : find needle (needle ++ after) = some 0 := by
  cases needle with
  | nil => cases after <;> simp [find]
  | cons head rest => exact if_pos (prefix_append (head :: rest) after)

theorem find_here (a : α) (rest : List α) : find [a] (a :: rest) = some 0 := if_pos (prefix_append [a] rest)

theorem find_closing {z : α} {init body : List α} (unique : z ∉ init) (absent : ¬ init ++ [z] <:+: body) :
    find (init ++ [z]) (body ++ (init ++ [z])) = some body.length := by
  induction body with
  | nil =>
    have here : find (init ++ [z]) ((init ++ [z]) ++ []) = some 0 := find_prefix []
    rwa [append_nil] at here
  | cons b body ih =>
    have other : ¬ init ++ [z] <+: b :: (body ++ (init ++ [z])) := by
      intro ⟨after, first⟩
      rw [← cons_append] at first
      rcases append_eq_append_iff.mp first with ⟨more, whole, _⟩ | ⟨more, start, follows⟩
      · exact absent ⟨[], more, by rw [nil_append, whole]⟩
      -- the occurrence would end in front of the last element of the needle
      have length := congrArg length start
      rw [length_append, length_append, length_singleton, length_cons] at length
      have short : more <+: init := by
        apply prefix_of_prefix_length_le ⟨after, follows.symm⟩ (prefix_append init [z])
        omega
      rcases eq_nil_or_concat more with none_ | ⟨more, last, rfl⟩
      · rw [none_, append_nil] at start
        exact absent ⟨[], [], by rw [nil_append, append_nil, start]⟩
      rw [concat_eq_append, ← append_assoc] at start
      have same : z = last := singleton_inj.mp (append_inj_right' start rfl)
      apply unique
      rw [same]
      exact short.subset (by simp)
    rw [cons_append, find, if_neg other, ih fun inside => absent (infix_cons inside)]
    rfl
theorem find_singleton (a : α) (text : List α) :
    find [a] text = if a ∈ text then some (text.takeWhile fun b => b ≠ a).length else none := by
  induction text with
  | nil => simp [find]
  | cons head rest ih =>
    by_cases same : head = a
    · subst same
      simp [find]
    have different : ¬ [a] <+: head :: rest := by
      intro first
      exact same (cons_prefix_cons.mp first).1.symm
    simp only [find, if_neg different, ih, mem_cons, Ne.symm same]
    by_cases mem : a ∈ rest
    · simp [same]
    · simp [mem]

theorem find_one {a : α} {n : Nat} (h : find [a] text = some n) :
    a ∉ text.take n ∧ text.drop n = a :: text.drop (n + 1) := by
  have split := find_split h
  rw [find_singleton] at h
  split at h
  · cases h
    constructor
    · rw [← prefix_iff_eq_take.mp ( takeWhile_prefix fun b => decide (b ≠ a))]
      intro mem
      have other := mem_takeWhile_imp mem
      rw [decide_eq_true_eq] at other
      exact other rfl
    · have short : (text.take (text.takeWhile fun b => b ≠ a).length).length = (text.takeWhile fun b => b ≠ a).length := by
        rw [length_take, min_eq_left (takeWhile_sublist _).length_le]
      have behind := congrArg (drop (text.takeWhile fun b => b ≠ a).length) split
      rw [drop_left' short] at behind
      exact behind
  · cases h

theorem find_one_none {a : α} (h : find [a] text = none) : a ∉ text := by
  intro mem
  rw [find_singleton, if_pos mem] at h
  cases h

theorem find_absent {a : α} (inside : a ∈ needle) (absent : a ∉ text) : find needle text = none := by
  induction text with
  | nil => exact if_neg (ne_nil_of_mem inside)
  | cons b rest ih =>
    have different : ¬ needle <+: b :: rest := fun first => absent (first.subset inside)
    rw [find, if_neg different, ih fun mem => absent (mem_cons_of_mem _ mem)]
    rfl

theorem find_skip {a : α} {before : List α} (absent : a ∉ before) (rest : List α) :
    find (a :: needle) (before ++ rest) = (find (a :: needle) rest).map (· + before.length) := by
  induction before with
  | nil => simp
  | cons b before ih =>
    have different : ¬ a :: needle <+: b :: (before ++ rest) := by
      intro first
      exact absent (by rw [(cons_prefix_cons.mp first).1]; exact mem_cons_self)
    rw [cons_append, find, if_neg different, ih fun mem => absent (mem_cons_of_mem _ mem), Option.map_map]
    rfl

theorem find_joined {a : α} {parts : List (List α)} (plain : ∀ part ∈ parts, part ≠ [] ∧ a ∉ part) (tail : List α) :
    find [a, a] ([a].intercalate parts ++ tail) = (find [a, a] tail).map (· + ([a].intercalate parts).length) := by
  induction parts with
  | nil => simp
  | cons part rest ih =>
    obtain ⟨_, absent⟩ := plain part mem_cons_self
    have later := ih fun part mem => plain part (mem_cons_of_mem _ mem)
    cases rest with
    | nil =>
      rw [intercalate_singleton]
      exact find_skip absent tail
    | cons next rest =>
      obtain ⟨nonempty, apart⟩ := plain next (mem_cons_of_mem _ mem_cons_self)
      obtain ⟨b, next, rfl⟩ := exists_cons_of_ne_nil nonempty
      have other : ¬ [a, a] <+: a :: ([a].intercalate ((b :: next) :: rest) ++ tail) := by
        intro first
        rw [intercalate_cons_cons_left] at first
        have second := (cons_prefix_cons.mp first).2
        exact apart (by rw [(cons_prefix_cons.mp second).1]; exact mem_cons_self)
      rw [intercalate_cons_cons, append_assoc, append_assoc, find_skip absent, singleton_append, find,
        if_neg other, later]
      simp only [Option.map_map, length_append, length_singleton]
      congr 1
      funext i
      simp only [Function.comp_apply]
      omega

end

/-! Scans over indices with a test that may fail, upwards with a bounded index and downwards to zero. -/

section

variable (test : Nat → Option Bool) (missing : Nat)

/-- `for (; more(index); ++index)`, with an index of bounded width. -/
def scanUp (more : Nat → Bool) (width : Nat) : Nat → Nat → Option Nat
  | 0, _ => none
  | rounds + 1, index =>
    if more index then
      match test index with
      | none => none
      | some true => some index
      | some false => scanUp more width rounds ((index + 1) % 2 ^ width)
    else some missing

def scanDown : Nat → Option Nat
  | 0 =>
    match test 0 with
    | none => none
    | some true => some 0
    | some false => some missing
  | index + 1 =>
    match test (index + 1) with
    | none => none
    | some true => some (index + 1)
    | some false => scanDown index

end

section

def LeastOr (missing : Nat) (property : Nat → Prop) (result : Nat) : Prop :=
  (property result ∧ ∀ index, property index → result ≤ index) ∨ (result = missing ∧ ∀ index, ¬ property index)

def GreatestOr (missing : Nat) (property : Nat → Prop) (result : Nat) : Prop :=
  (property result ∧ ∀ index, property index → index ≤ result) ∨ (result = missing ∧ ∀ index, ¬ property index)

variable {missing : Nat} {property property' : Nat → Prop} {result result' : Nat}

theorem LeastOr.unique (least : LeastOr missing property result) (least' : LeastOr missing property result') : result = result' := by
  rcases least with ⟨holds, below⟩ | ⟨rfl, none⟩
  · rcases least' with ⟨holds', below'⟩ | ⟨_, none'⟩
    · exact le_antisymm (below _ holds') (below' _ holds)
    · exact absurd holds (none' _)
  · rcases least' with ⟨holds', _⟩ | ⟨rfl, _⟩
    · exact absurd holds' (none _)
    · rfl

theorem GreatestOr.unique (greatest : GreatestOr missing property result) (greatest' : GreatestOr missing property result') : result = result' := by
  rcases greatest with ⟨holds, above⟩ | ⟨rfl, none⟩
  · rcases greatest' with ⟨holds', above'⟩ | ⟨_, none'⟩
    · exact le_antisymm (above' _ holds) (above _ holds')
    · exact absurd holds (none' _)
  · rcases greatest' with ⟨holds', _⟩ | ⟨rfl, _⟩
    · exact absurd holds' (none _)
    · rfl

theorem LeastOr.congr (same : ∀ index, property index ↔ property' index) (least : LeastOr missing property result) :
    LeastOr missing property' result := by
  rwa [← funext fun index => propext (same index)]

theorem GreatestOr.congr (same : ∀ index, property index ↔ property' index) (greatest : GreatestOr missing property result) :
    GreatestOr missing property' result := by
  rwa [← funext fun index => propext (same index)]

theorem LeastOr.none (nowhere : ∀ index, ¬ property index) : LeastOr missing property missing := .inr ⟨rfl, nowhere⟩

theorem GreatestOr.none (nowhere : ∀ index, ¬ property index) : GreatestOr missing property missing := .inr ⟨rfl, nowhere⟩

end

section

variable {test : Nat → Option Bool} (missing : Nat) {property : Nat → Prop}

def Answers (test : Nat → Option Bool) (property : Nat → Prop) (index : Nat) : Prop := ∃ answer, test index = some answer ∧ (answer = true ↔ property index)

theorem scanUp_spec {more : Nat → Bool} {width stop : Nat} (fits : stop < 2 ^ width) (bound : ∀ index, more index = true ↔ index < stop)
    (answers : ∀ index < stop, Answers test property index) (rounds : Nat) : ∀ index ≤ stop, stop - index < rounds →
      ∃ result, scanUp test missing more width rounds index = some result ∧
        LeastOr missing (fun i => index ≤ i ∧ i < stop ∧ property i) result := by
  induction rounds with
  | zero => exact fun index _ enough => absurd enough (not_lt_zero _)
  | succ rounds ih =>
    intro index most enough
    unfold scanUp
    by_cases inside : index < stop
    · rw [if_pos ((bound index).mpr inside)]
      obtain ⟨answer, tested, meaning⟩ := answers index inside
      rw [tested]
      cases answer with
      | true => exact ⟨index, rfl, .inl ⟨⟨le_refl index, inside, meaning.mp rfl⟩, fun i at_ => at_.1⟩⟩
      | false =>
        have next : (index + 1) % 2 ^ width = index + 1 := mod_eq_of_lt (by omega)
        obtain ⟨result, scanned, least⟩ := ih (index + 1) inside (by omega)
        refine ⟨result, by rw [← scanned, next], least.congr fun i => ?_⟩
        constructor
        · rintro ⟨after, before, holds⟩
          exact ⟨le_of_succ_le after, before, holds⟩
        · rintro ⟨after, before, holds⟩
          rcases eq_or_lt_of_le after with rfl | later
          · exact nomatch meaning.mpr holds
          · exact ⟨later, before, holds⟩
    · rw [if_neg fun yes => inside ((bound index).mp yes)]
      refine ⟨missing, rfl, .none ?_⟩
      rintro i ⟨after, before, _⟩
      omega

theorem scanDown_spec (index : Nat) (answers : ∀ i ≤ index, Answers test property i) :
    ∃ result, scanDown test missing index = some result ∧ GreatestOr missing (fun i => i ≤ index ∧ property i) result := by
  induction index with
  | zero =>
    obtain ⟨answer, tested, meaning⟩ := answers 0 (le_refl 0)
    rw [scanDown, tested]
    cases answer with
    | true => exact ⟨0, rfl, .inl ⟨⟨le_refl 0, meaning.mp rfl⟩, fun i at_ => at_.1⟩⟩
    | false =>
      refine ⟨missing, rfl, .none ?_⟩
      rintro i ⟨below, holds⟩
      rw [le_zero.mp below] at holds
      exact nomatch meaning.mpr holds
  | succ index ih =>
    obtain ⟨answer, tested, meaning⟩ := answers (index + 1) (le_refl _)
    rw [scanDown, tested]
    cases answer with
    | true => exact ⟨index + 1, rfl, .inl ⟨⟨le_refl _, meaning.mp rfl⟩, fun i at_ => at_.1⟩⟩
    | false =>
      obtain ⟨result, scanned, greatest⟩ := ih fun i below => answers i (le_succ_of_le below)
      refine ⟨result, scanned, greatest.congr fun i => ?_⟩
      constructor
      · exact fun inside => ⟨le_succ_of_le inside.1, inside.2⟩
      · rintro ⟨below, holds⟩
        rcases eq_or_lt_of_le below with rfl | earlier
        · exact nomatch meaning.mpr holds
        · exact ⟨Nat.lt_succ_iff.mp earlier, holds⟩

end

end Library
