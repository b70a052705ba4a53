import Mathlib

namespace Library.Probing

open Finset Function Nat

/-! Linear probing on a ring of slots, with deletion by backward shift. -/

variable {c : ℕ} {α : Type}

def gap (a b : ZMod c) : ℕ := (b - a).val

section

variable {a b : ZMod c} {k : ℕ}

theorem gap_self (a : ZMod c) : gap a a = 0 := by
  rw [gap, sub_self, ZMod.val_zero]

theorem gap_pos (h : a ≠ b) : 0 < gap a b := by
  rw [pos_iff_ne_zero, gap, Ne, ZMod.val_eq_zero, sub_eq_zero]
  exact h.symm

theorem gap_add (small : k < c) : gap a (a + (k : ZMod c)) = k := by
  rw [gap, add_sub_cancel_left, ZMod.val_natCast, mod_eq_of_lt small]

theorem gap_of_add (small : k < c) (h : a + (k : ZMod c) = b) : gap a b = k := by
  rw [← h, gap_add small]

variable [NeZero c]

theorem gap_lt (a b : ZMod c) : gap a b < c := ZMod.val_lt _

theorem add_gap (a b : ZMod c) : a + (gap a b : ZMod c) = b := by
  rw [gap, ZMod.natCast_zmod_val]
  abel

theorem gap_split (onWay : k ≤ gap a b) : gap (a + (k : ZMod c)) b = gap a b - k := by
  have small : k < c := lt_of_le_of_lt onWay (gap_lt a b)
  have value : ((k : ZMod c)).val = k := by rw [ZMod.val_natCast, mod_eq_of_lt small]
  have shape : b - (a + k) = (b - a) - k := by abel
  rw [gap, shape, ZMod.val_sub (by rw [value]; exact onWay), value]
  rfl

end

section

variable (home : α → ZMod c)

def Clustered (t : ZMod c → Option α) : Prop :=
  ∀ i e, t i = some e → ∀ k < gap (home e) i, t (home e + (k : ZMod c)) ≠ none

variable {home} {t : ZMod c → Option α}

theorem Clustered.insert {j : ZMod c} {e : α} (clustered : Clustered home t)
    (way : ∀ k < gap (home e) j, t (home e + (k : ZMod c)) ≠ none) : Clustered home (update t j (some e)) := by
  have kept (i : ZMod c) (occupied : t i ≠ none) : update t j (some e) i ≠ none := by
    rw [update_apply]
    split
    · exact Option.some_ne_none e
    · exact occupied
  intro i e' occupied k onWay
  apply kept
  rw [update_apply] at occupied
  split at occupied
  · rename_i same
    cases occupied
    rw [same] at onWay
    exact way k onWay
  · exact clustered i e' occupied k onWay

theorem Clustered.replace {j : ZMod c} {e e' : α} (clustered : Clustered home t) (here : t j = some e)
    (same : home e' = home e) : Clustered home (update t j (some e')) :=
  clustered.insert (by rw [same]; exact clustered j e here)

end

section

variable (stop : Option α → Bool) (t : ZMod c → Option α)

def scan : ℕ → ZMod c → Option (ZMod c)
  | 0, _ => none
  | n + 1, i => if stop (t i) then some i else scan n (i + 1)

variable {stop t}

theorem scan_some {n : ℕ} {i j : ZMod c} (h : scan stop t n i = some j) :
    ∃ k < n, j = i + (k : ZMod c) ∧ stop (t j) = true ∧ ∀ m < k, stop (t (i + (m : ZMod c))) = false := by
  induction n generalizing i with
  | zero => cases h
  | succ n ih =>
    unfold scan at h
    by_cases here : stop (t i) = true
    · rw [if_pos here] at h
      cases h
      exact ⟨0, by omega, by simp, here, fun m before => absurd before (by omega)⟩
    · rw [if_neg here] at h
      rcases ih h with ⟨k, bound, shape, found, passed⟩
      refine ⟨k + 1, by omega, ?_, found, ?_⟩
      · rw [shape]
        push_cast
        abel
      · intro m before
        cases m with
        | zero => simpa using here
        | succ m =>
          have next : i + ((m + 1 : ℕ) : ZMod c) = i + 1 + (m : ZMod c) := by
            push_cast
            abel
          rw [next]
          exact passed m (by omega)

theorem scan_none {n : ℕ} {i : ZMod c} (h : scan stop t n i = none) : ∀ k < n, stop (t (i + (k : ZMod c))) = false := by
  induction n generalizing i with
  | zero =>
    intro k bound
    omega
  | succ n ih =>
    unfold scan at h
    by_cases here : stop (t i) = true
    · rw [if_pos here] at h
      cases h
    rw [if_neg here] at h
    intro k bound
    cases k with
    | zero => simpa using here
    | succ k =>
      have next : i + ((k + 1 : ℕ) : ZMod c) = i + 1 + (k : ZMod c) := by
        push_cast
        abel
      rw [next]
      exact ih h k (by omega)

def emptyOr (p : α → Bool) : Option α → Bool
  | none => true
  | some e => p e

variable [NeZero c] {home : α → ZMod c} {p : α → Bool} {h : ZMod c}

theorem Clustered.scan_found (clustered : Clustered home t) (start : ∀ e, p e = true → home e = h) {j : ZMod c}
    (found : scan (emptyOr p) t c h = some j) : (∃ e, t j = some e ∧ p e = true) ∨
      (t j = none ∧ (∀ i e, t i = some e → p e = false) ∧ ∀ k < gap h j, t (h + (k : ZMod c)) ≠ none) := by
  rcases scan_some found with ⟨k, bound, shape, stops, passed⟩
  have distance : gap h j = k := gap_of_add bound shape.symm
  have occupied : ∀ m < k, t (h + (m : ZMod c)) ≠ none := by
    intro m before empty
    have gone := passed m before
    rw [empty] at gone
    cases gone
  cases content : t j with
  | some e =>
    rw [content] at stops
    exact .inl ⟨e, rfl, stops⟩
  | none =>
    refine .inr ⟨rfl, ?_, by rwa [distance]⟩
    intro i e here
    rw [← Bool.not_eq_true]
    intro wanted
    have fromHome : home e = h := start e wanted
    rcases lt_trichotomy (gap h i) k with near | same | far
    · have gone := passed _ near
      rw [add_gap, here] at gone
      exact absurd wanted (Bool.eq_false_iff.mp gone)
    · rw [← add_gap h i, same, ← shape, content] at here
      cases here
    · have way := clustered i e here k (by rwa [fromHome])
      rw [fromHome, ← shape] at way
      exact way content

theorem scan_missed (missed : scan (emptyOr p) t c h = none) : ∀ i, ∃ e, t i = some e ∧ p e = false := by
  intro i
  have passed := scan_none missed (gap h i) (gap_lt h i)
  rw [add_gap] at passed
  cases content : t i with
  | none =>
    rw [content] at passed
    cases passed
  | some e =>
    rw [content] at passed
    exact ⟨e, rfl, passed⟩

end

section

variable (home : α → ZMod c)

/-- Entries after a hole move back into it, each at most to its home; `none` when out of fuel. -/
def shift : ℕ → (ZMod c → Option α) → ZMod c → ZMod c → Option (ZMod c → Option α)
  | 0, _, _, _ => none
  | fuel + 1, t, hole, next =>
    match t next with
    | none => some t
    | some e =>
      if gap (home e) hole < gap (home e) next then
        shift fuel (update (update t hole (some e)) next none) next (next + 1)
      else shift fuel t hole (next + 1)

/-- The slots from the hole to `d` steps after it are taken, and only entries further on may have the
    hole on their way. -/
structure Holed (t : ZMod c → Option α) (hole : ZMod c) (d : ℕ) : Prop where
  empty : t hole = none
  taken : ∀ k, 0 < k → k < d → t (hole + (k : ZMod c)) ≠ none
  way : ∀ i e, t i = some e → ∀ k < gap (home e) i,
    t (home e + (k : ZMod c)) ≠ none ∨ (home e + (k : ZMod c) = hole ∧ d ≤ gap hole i)

def cost (i : ZMod c) : Option α → ℕ
  | none => 0
  | some e => gap (home e) i

def displacement [NeZero c] (t : ZMod c → Option α) : ℕ := ∑ i, cost home i (t i)

variable {home} {t : ZMod c → Option α} {hole : ZMod c} {d : ℕ}

theorem Clustered.holed (clustered : Clustered home t) (h : ZMod c) : Holed home (update t h none) h 1 where
  empty := by simp
  taken k positive small := by omega
  way i e occupied k onWay := by
    have other : i ≠ h := by
      rintro rfl
      simp at occupied
    rw [update_of_ne other] at occupied
    by_cases here : home e + (k : ZMod c) = h
    · exact .inr ⟨here, gap_pos other.symm⟩
    · rw [update_of_ne here]
      exact .inl (clustered i e occupied k onWay)

theorem Holed.move {e : α} {next : ZMod c} (holed : Holed home t hole d) (here : t next = some e)
    (moves : gap (home e) hole < gap (home e) next) : Holed home (update (update t hole (some e)) next none) next 1 where
  empty := by simp
  taken k positive small := by omega
  way i e' occupied k onWay := by
    have notNext : i ≠ next := by
      rintro rfl
      simp at occupied
    rw [update_of_ne notNext] at occupied
    by_cases onNext : home e' + (k : ZMod c) = next
    · exact .inr ⟨onNext, gap_pos notNext.symm⟩
    left
    rw [update_of_ne onNext]
    by_cases onHole : home e' + (k : ZMod c) = hole
    · rw [onHole, update_self]
      exact Option.some_ne_none e
    rw [update_of_ne onHole]
    by_cases moved : i = hole
    · rw [moved, update_self] at occupied
      cases occupied
      rw [moved] at onWay
      rcases holed.way next e here k (by omega) with taken | ⟨passed, _⟩
      · exact taken
      · exact absurd passed onHole
    · rw [update_of_ne moved] at occupied
      rcases holed.way i e' occupied k onWay with taken | ⟨passed, _⟩
      · exact taken
      · exact absurd passed onHole

variable [NeZero c]

theorem Holed.clustered (holed : Holed home t hole d) (stop : t (hole + (d : ZMod c)) = none) (positive : 0 < d)
    (bound : d ≤ c) : Clustered home t := by
  intro i e occupied k onWay
  rcases holed.way i e occupied k onWay with taken | ⟨here, after⟩
  · exact taken
  exfalso
  have inside := gap_lt hole i
  have rest : gap hole i = gap (home e) i - k := by rw [← here, gap_split (by omega)]
  have next : home e + ((k + d : ℕ) : ZMod c) = hole + (d : ZMod c) := by
    rw [← here]
    push_cast
    abel
  by_cases last : d = gap hole i
  · rw [last, add_gap] at stop
    rw [stop] at occupied
    cases occupied
  rcases holed.way i e occupied (k + d) (by omega) with taken | ⟨again, _⟩
  · rw [next] at taken
    exact taken stop
  rw [next] at again
  have zero : gap hole hole = d := gap_of_add (by omega) again
  rw [gap_self] at zero
  omega

theorem Holed.pass {e : α} (holed : Holed home t hole d) (here : t (hole + (d : ZMod c)) = some e)
    (stays : ¬ gap (home e) hole < gap (home e) (hole + (d : ZMod c))) : Holed home t hole (d + 1) where
  empty := holed.empty
  taken k positive small := by
    by_cases last : k = d
    · rw [last, here]
      exact Option.some_ne_none e
    · exact holed.taken k positive (by omega)
  way i e' occupied k onWay := by
    rcases holed.way i e' occupied k onWay with taken | ⟨passed, after⟩
    · exact .inl taken
    refine .inr ⟨passed, ?_⟩
    by_contra near
    have same : gap hole i = d := by omega
    have slot : hole + (d : ZMod c) = i := by rw [← same, add_gap]
    rw [slot] at here stays
    rw [here] at occupied
    cases occupied
    have distance := gap_of_add (lt_trans onWay (gap_lt _ _)) passed
    omega

theorem displacement_move {e : α} {next : ZMod c} (empty : t hole = none) (here : t next = some e)
    (moves : gap (home e) hole < gap (home e) next) :
    displacement home (update (update t hole (some e)) next none) < displacement home t := by
  have differ : hole ≠ next := by
    rintro rfl
    omega
  unfold displacement
  rw [← add_sum_erase _ _ (mem_univ next), ← add_sum_erase _ _ (mem_univ next)]
  rw [← add_sum_erase _ _ (mem_erase.mpr ⟨differ, mem_univ hole⟩),
    ← add_sum_erase _ _ (mem_erase.mpr ⟨differ, mem_univ hole⟩)]
  have others : ∑ i ∈ (univ.erase next).erase hole,
      cost home i (update (update t hole (some e)) next none i) =
      ∑ i ∈ (univ.erase next).erase hole, cost home i (t i) := by
    apply sum_congr rfl
    intro i mem
    rw [mem_erase, mem_erase] at mem
    rw [update_of_ne mem.2.1, update_of_ne mem.1]
  rw [others, update_self, update_of_ne differ, update_self, here]
  simp only [cost]
  omega

theorem displacement_le (home : α → ZMod c) (t : ZMod c → Option α) : displacement home t ≤ c * (c - 1) := by
  have each : ∀ i ∈ (univ : Finset (ZMod c)), cost home i (t i) ≤ c - 1 := by
    intro i _
    cases t i with
    | none => exact zero_le _
    | some e => exact le_sub_one_of_lt (gap_lt _ _)
  have total := sum_le_card_nsmul _ _ _ each
  rwa [Finset.card_univ, ZMod.card] at total

/-- The shift ends and leaves no entry behind an empty slot. Every pass through the
    ring without a move reaches the hole, and every move brings an entry closer to its home. -/
theorem Holed.shift_ends (holed : Holed home t hole d) (positive : 0 < d) (bound : d ≤ c) (fuel : ℕ)
    (enough : displacement home t * c + (c - d) < fuel) :
    ∃ t', shift home fuel t hole (hole + (d : ZMod c)) = some t' ∧ Clustered home t' := by
  induction fuel generalizing t hole d with
  | zero => omega
  | succ fuel ih =>
    have after : hole + (d : ZMod c) + 1 = hole + ((d + 1 : ℕ) : ZMod c) := by
      push_cast
      abel
    unfold shift
    cases content : t (hole + (d : ZMod c)) with
    | none => exact ⟨t, rfl, holed.clustered content positive bound⟩
    | some e =>
      have further : d < c := by
        apply lt_of_le_of_ne bound
        rintro rfl
        rw [ZMod.natCast_self, add_zero, holed.empty] at content
        cases content
      dsimp only
      by_cases moves : gap (home e) hole < gap (home e) (hole + (d : ZMod c))
      · rw [if_pos moves]
        have closer := displacement_move holed.empty content moves
        have measure : displacement home (update (update t hole (some e)) (hole + (d : ZMod c)) none) * c +
            (c - 1) < fuel := by
          have product := mul_le_mul_right c (succ_le_of_lt closer)
          rw [succ_mul] at product
          omega
        have rest := ih (holed.move content moves) one_pos (le_trans positive bound) measure
        rwa [cast_one] at rest
      · rw [if_neg moves, after]
        exact ih (holed.pass content moves) (succ_pos d) further (by omega)

theorem Clustered.remove (clustered : Clustered home t) (h : ZMod c) :
    ∃ t', shift home (c * c * c) (update t h none) h (h + 1) = some t' ∧ Clustered home t' := by
  have positive : 0 < c := pos_of_neZero c
  have small := mul_le_mul_right c (displacement_le home (update t h none))
  have cube : c * (c - 1) * c + c * c = c * c * c := by
    rw [← Nat.add_mul, Nat.mul_sub_one, Nat.sub_add_cancel (Nat.le_mul_of_pos_left c positive)]
  have wide : c ≤ c * c := Nat.le_mul_of_pos_left c positive
  have ends := (clustered.holed h).shift_ends one_pos positive (c * c * c) (by omega)
  rwa [cast_one] at ends

end

end Library.Probing
