import NginBase.Memory.SmartPointers

namespace NginBase.Memory

open Function List TicketHandle

theorem countP_set {α : Type} (p : α → Bool) {l : List α} {i : Nat} {old : α} (new : α) (here : l[i]? = some old) :
    (l.set i new).countP p + (p old).toNat = l.countP p + (p new).toNat := by
  induction l generalizing i with
  | nil => cases here
  | cons first rest ih =>
    cases i with
    | zero =>
      obtain rfl : first = old := by simpa using here
      rw [set_cons_zero, countP_cons, countP_cons]
      cases p first <;> cases p new <;> simp
    | succ i =>
      have step := ih (by simpa using here : rest[i]? = some old)
      rw [set_cons_succ, countP_cons, countP_cons]
      omega

theorem countP_swap {α : Type} (p : α → Bool) {l : List α} {i j : Nat} {a b : α} (here : l[i]? = some a) (there : l[j]? = some b) :
    ((l.set i b).set j a).countP p = l.countP p := by
  have again : (l.set i b)[j]? = some b := by
    by_cases same : i = j
    · subst same
      rw [List.getElem?_set_self (List.getElem?_eq_some_iff.mp here).1]
    · rw [getElem?_set_ne same, there]
  have first := countP_set p b here
  have second := countP_set p a again
  omega

def SharedHandle.owns (c : Nat) : SharedHandle → Bool
  | holds ctrl => ctrl = some c
  | dropping _ => false

def SharedHandle.drops (c : Nat) : SharedHandle → Bool
  | holds _ => false
  | dropping d => d = c

def TicketHandle.refers (c : Nat) : TicketHandle → Bool
  | holds ctrl => ctrl = some c
  | leaving _ => false
  | locking d _ => d = c

def TicketHandle.leaves (c : Nat) : TicketHandle → Bool
  | leaving d => d = c
  | _ => false

def ownersIn (shared : List SharedHandle) (c : Nat) : Nat := shared.countP (SharedHandle.owns c)

def droppersIn (shared : List SharedHandle) (c : Nat) : Nat := shared.countP (SharedHandle.drops c)

def holdersIn (tickets : List TicketHandle) (c : Nat) : Nat := tickets.countP (refers c)

def leaversIn (tickets : List TicketHandle) (c : Nat) : Nat := tickets.countP (leaves c)

structure SharedControl.Counts (control : SharedControl) (owners droppers holders leavers : Nat) : Prop where
  strong : control.strong = owners
  weak : control.weak = holders + droppers + if 0 < owners then 1 else 0
  freed : control.freed + leavers = if control.weak = 0 then 1 else 0
  destroyed : control.destroyed = if 0 < owners then 0 else 1
  alive : control.alive = true ↔ 0 < owners

namespace SharedControl.Counts

variable {control : SharedControl} {owners droppers holders leavers : Nat}

theorem made : ({} : SharedControl).Counts 1 0 0 0 := ⟨rfl, rfl, rfl, rfl, by decide⟩

theorem unfreed (counts : control.Counts owners droppers holders leavers)
    (refers : 0 < owners + droppers + holders + leavers) : control.freed = 0 := by
  have weak := counts.weak
  have freed := counts.freed
  split at weak <;> split at freed <;> omega

theorem addStrong (counts : control.Counts owners droppers holders leavers) (owned : 0 < owners) :
    control.addStrong.Counts (owners + 1) droppers holders leavers := by
  obtain ⟨strong, weak, freed, destroyed, alive⟩ := counts
  rw [if_pos owned] at weak destroyed
  refine ⟨congrArg (· + 1) strong, ?_, freed, ?_, ?_⟩
  · exact weak
  · exact destroyed
  · exact iff_of_true (alive.mpr owned) (Nat.succ_pos _)

section

variable (counts : control.Counts (owners + 1) droppers holders leavers)

include counts

theorem destroyObject (last : control.strong = 1) :
    control.subStrong.destroyObject.Counts 0 (droppers + 1) holders leavers := by
  obtain ⟨strong, weak, freed, destroyed, alive⟩ := counts
  have isAlive : control.subStrong.alive = true := alive.mpr (Nat.succ_pos _)
  have destroyed : control.destroyed = 0 := destroyed
  unfold SharedControl.destroyObject
  rw [if_pos isAlive]
  refine ⟨?_, ?_, freed, ?_, by simp⟩
  · show control.strong - 1 = 0
    omega
  · show control.weak = holders + (droppers + 1) + 0
    rw [weak, if_pos (Nat.succ_pos _)]
    omega
  · show control.destroyed + 1 = 1
    omega

theorem subStrong (more : control.strong ≠ 1) : control.subStrong.Counts owners droppers holders leavers := by
  obtain ⟨strong, weak, freed, destroyed, alive⟩ := counts
  have owned : 0 < owners := by omega
  refine ⟨by show control.strong - 1 = owners; omega, ?_, freed, ?_, ?_⟩
  · rw [if_pos owned]
    exact weak
  · rw [if_pos owned]
    exact destroyed
  · exact iff_of_true (alive.mpr (Nat.succ_pos _)) owned

end

section

variable (counts : control.Counts owners droppers holders leavers)

include counts

variable {holders' : Nat}

theorem subWeak {droppers' : Nat} (less : holders' + droppers' + 1 = holders + droppers) (more : control.weak ≠ 1) :
    control.subWeak.Counts owners droppers' holders' leavers := by
  obtain ⟨strong, weak, freed, destroyed, alive⟩ := counts
  have now : control.subWeak.weak = control.weak - 1 := rfl
  have positive : control.weak ≠ 0 := by
    omega
  refine ⟨strong, ?_, ?_, destroyed, alive⟩
  · omega
  · rw [if_neg (by omega)]
    rw [if_neg positive] at freed
    exact freed

theorem lastWeak {droppers' : Nat} (less : holders' + droppers' + 1 = holders + droppers) (last : control.weak = 1) :
    owners = 0 ∧ holders' = 0 ∧ droppers' = 0 ∧ leavers = 0 ∧ control.freed = 0 := by
  have weak := counts.weak
  have freed := counts.freed
  rw [if_neg (by omega)] at freed
  split at weak <;> omega

theorem deallocateSelf {droppers' : Nat} (less : holders' + droppers' + 1 = holders + droppers)
    (last : control.weak = 1) : control.subWeak.deallocateSelf.Counts owners droppers' holders' leavers := by
  obtain ⟨rfl, rfl, rfl, rfl, freed⟩ := counts.lastWeak less last
  have now : control.subWeak.deallocateSelf.weak = 0 := by
    show control.weak - 1 = 0
    omega
  refine ⟨counts.strong, now, ?_, counts.destroyed, counts.alive⟩
  rw [now]
  show control.freed + 1 + 0 = 1
  omega

theorem leaves (less : holders' + 1 = holders) (last : control.weak = 1) :
    control.subWeak.Counts owners droppers holders' (leavers + 1) := by
  obtain ⟨rfl, rfl, rfl, rfl, freed⟩ := counts.lastWeak (by omega : holders' + droppers + 1 = holders + droppers) last
  have now : control.subWeak.weak = 0 := by
    show control.weak - 1 = 0
    omega
  refine ⟨counts.strong, now, ?_, counts.destroyed, counts.alive⟩
  rw [now]
  show control.freed + (0 + 1) = 1
  omega

end

theorem left (counts : control.Counts owners droppers holders (leavers + 1)) :
    control.strong = 0 ∧ control.deallocateSelf.Counts owners droppers holders leavers := by
  obtain ⟨strong, weak, freed, destroyed, alive⟩ := counts
  have none_ : control.weak = 0 := by
    by_contra some_
    rw [if_neg some_] at freed
    omega
  rw [if_pos none_] at freed
  have unowned : owners = 0 := by
    split at weak <;> omega
  refine ⟨by omega, strong, weak, ?_, destroyed, alive⟩
  show control.freed + 1 + leavers = if control.weak = 0 then 1 else 0
  rw [if_pos none_]
  omega

theorem addWeak (counts : control.Counts owners droppers holders leavers) (refers : 0 < owners + holders) :
    control.addWeak.Counts owners droppers (holders + 1) leavers := by
  obtain ⟨strong, weak, freed, destroyed, alive⟩ := counts
  have positive : control.weak ≠ 0 := by
    split at weak <;> omega
  have now : control.addWeak.weak = control.weak + 1 := rfl
  rw [if_neg positive] at freed
  refine ⟨strong, by omega, ?_, destroyed, alive⟩
  exact freed

end SharedControl.Counts

namespace Handles

variable {s : Handles} {c i j : Nat}

def Balanced (s : Handles) (c : Nat) : Prop :=
  (s.controls c).Counts (ownersIn s.shared c) (droppersIn s.shared c) (holdersIn s.tickets c) (leaversIn s.tickets c)

def references (s : Handles) (c : Nat) : Nat :=
  ownersIn s.shared c + droppersIn s.shared c + holdersIn s.tickets c + leaversIn s.tickets c

structure Kept (s : Handles) : Prop where
  balanced : ∀ c, c < s.made → s.Balanced c
  known : ∀ c, 0 < s.references c → c < s.made
  expected : ∀ c, .locking c 0 ∉ s.tickets
  safe : s.faults = 0
  agreed : ∀ p ∈ s.locks, p.1 = p.2

theorem Kept.unfreed (kept : Kept s) (refers : 0 < s.references c) :
    (s.controls c).freed = 0 := (kept.balanced c (kept.known c refers)).unfreed refers

variable {change : SharedControl → SharedControl}

theorem Kept.changed (kept : Kept s) (refers : 0 < s.references c) {shared : List SharedHandle}
    {tickets : List TicketHandle} {locks : List (Bool × Bool)}
    (others : ∀ d, d ≠ c → ownersIn shared d = ownersIn s.shared d ∧ droppersIn shared d = droppersIn s.shared d ∧
      holdersIn tickets d = holdersIn s.tickets d ∧ leaversIn tickets d = leaversIn s.tickets d)
    (counts : (change (s.controls c)).Counts (ownersIn shared c) (droppersIn shared c)
      (holdersIn tickets c) (leaversIn tickets c)) (expected : ∀ d, .locking d 0 ∉ tickets)
    (agreed : ∀ p ∈ locks, p.1 = p.2) : Kept { s.access c change with shared, tickets, locks } := by
  have made := kept.known c refers
  refine ⟨?_, ?_, expected, ?_, agreed⟩
  · intro d known
    show (update s.controls c (change (s.controls c)) d).Counts (ownersIn shared d) (droppersIn shared d)
      (holdersIn tickets d) (leaversIn tickets d)
    by_cases same : d = c
    · subst same
      rw [update_self]
      exact counts
    · obtain ⟨owners, droppers, holders, leavers⟩ := others d same
      rw [update_of_ne same, owners, droppers, holders, leavers]
      exact kept.balanced d known
  · intro d refers'
    by_cases same : d = c
    · rw [same]
      exact made
    obtain ⟨owners, droppers, holders, leavers⟩ := others d same
    apply kept.known d
    unfold references
    rw [← owners, ← droppers, ← holders, ← leavers]
    exact refers'
  · show (if (s.controls c).freed = 0 then s.faults else s.faults + 1) = 0
    rw [if_pos (kept.unfreed refers)]
    exact kept.safe

def SharedAbout (c : Nat) (handle : SharedHandle) : Prop := ∀ d, d ≠ c → handle.owns d = false ∧ handle.drops d = false

def TicketAbout (c : Nat) (handle : TicketHandle) : Prop := ∀ d, d ≠ c → handle.refers d = false ∧ handle.leaves d = false

theorem sharedAbout_none : SharedAbout c (.holds none) := fun _ _ => ⟨rfl, rfl⟩

theorem sharedAbout_some : SharedAbout c (.holds (some c)) := fun d different =>
  ⟨by simp [SharedHandle.owns, different.symm], rfl⟩

theorem sharedAbout_dropping : SharedAbout c (.dropping c) := fun d different =>
  ⟨rfl, by simp [SharedHandle.drops, different.symm]⟩

theorem ticketAbout_none : TicketAbout c (.holds none) := fun _ _ => ⟨rfl, rfl⟩

theorem ticketAbout_some : TicketAbout c (.holds (some c)) := fun d different =>
  ⟨by simp [refers, different.symm], rfl⟩

theorem ticketAbout_leaving : TicketAbout c (.leaving c) := fun d different =>
  ⟨rfl, by simp [leaves, different.symm]⟩

theorem ticketAbout_locking {expected : Nat} : TicketAbout c (.locking c expected) := fun d different =>
  ⟨by simp [refers, different.symm], rfl⟩

theorem sharedAbout_others {old new : SharedHandle} (here : s.shared[i]? = some old) (about : SharedAbout c old)
    (about' : SharedAbout c new) {d : Nat} (different : d ≠ c) :
    ownersIn (s.shared.set i new) d = ownersIn s.shared d ∧ droppersIn (s.shared.set i new) d = droppersIn s.shared d := by
  have owners := countP_set (SharedHandle.owns d) new here
  have droppers := countP_set (SharedHandle.drops d) new here
  rw [(about d different).1, (about' d different).1] at owners
  rw [(about d different).2, (about' d different).2] at droppers
  exact ⟨owners, droppers⟩

theorem ticketAbout_others {old new : TicketHandle} (here : s.tickets[i]? = some old) (about : TicketAbout c old)
    (about' : TicketAbout c new) {d : Nat} (different : d ≠ c) :
    holdersIn (s.tickets.set i new) d = holdersIn s.tickets d ∧ leaversIn (s.tickets.set i new) d = leaversIn s.tickets d := by
  have holders := countP_set (refers d) new here
  have leavers := countP_set (leaves d) new here
  rw [(about d different).1, (about' d different).1] at holders
  rw [(about d different).2, (about' d different).2] at leavers
  exact ⟨holders, leavers⟩

theorem Kept.relistedShared (kept : Kept s) {shared : List SharedHandle}
    (same : ∀ p : SharedHandle → Bool, shared.countP p = s.shared.countP p) : Kept { s with shared } := by
  refine ⟨?_, ?_, kept.expected, kept.safe, kept.agreed⟩
  · intro c made
    have before := kept.balanced c made
    unfold Balanced ownersIn droppersIn at before ⊢
    rw [same, same]
    exact before
  · intro c refers
    apply kept.known c
    unfold references ownersIn droppersIn at refers ⊢
    rw [same, same] at refers
    exact refers

theorem Kept.relistedTickets (kept : Kept s) {tickets : List TicketHandle}
    (same : ∀ p : TicketHandle → Bool, tickets.countP p = s.tickets.countP p) : Kept { s with tickets } := by
  refine ⟨?_, ?_, ?_, kept.safe, kept.agreed⟩
  · intro c made
    have before := kept.balanced c made
    unfold Balanced holdersIn leaversIn at before ⊢
    rw [same, same]
    exact before
  · intro c refers
    apply kept.known c
    unfold references holdersIn leaversIn at refers ⊢
    rw [same, same] at refers
    exact refers
  · intro c mem
    let zero : TicketHandle → Bool := fun | .locking d e => d = c ∧ e = 0 | _ => false
    have positive : 0 < s.tickets.countP zero := by
      rw [← same]
      exact countP_pos_iff.mpr ⟨_, mem, by simp [zero]⟩
    obtain ⟨handle, mem', isZero⟩ := countP_pos_iff.mp positive
    cases handle with
    | locking d e =>
      simp only [zero, decide_eq_true_eq] at isZero
      obtain ⟨rfl, rfl⟩ := isZero
      exact kept.expected d mem'
    | holds ctrl => cases isZero
    | leaving d => cases isZero

theorem Kept.changedShared (kept : Kept s) {old new : SharedHandle} (here : s.shared[i]? = some old)
    (about : SharedAbout c old) (about' : SharedAbout c new) (refers : 0 < s.references c)
    (counts : ∀ owners droppers, owners + (old.owns c).toNat = ownersIn s.shared c + (new.owns c).toNat →
      droppers + (old.drops c).toNat = droppersIn s.shared c + (new.drops c).toNat →
      (change (s.controls c)).Counts owners droppers (holdersIn s.tickets c) (leaversIn s.tickets c)) :
    Kept ((s.access c change).setShared i new) := by
  apply kept.changed refers _ _ kept.expected kept.agreed
  · intro d different
    obtain ⟨owners, droppers⟩ := sharedAbout_others here about about' different
    exact ⟨owners, droppers, rfl, rfl⟩
  · exact counts _ _ (countP_set _ new here) (countP_set _ new here)

theorem Kept.changedTicket (kept : Kept s) {old new : TicketHandle} (here : s.tickets[i]? = some old)
    (about : TicketAbout c old) (about' : TicketAbout c new) (refers : 0 < s.references c)
    (some_ : ∀ d, new ≠ .locking d 0) {locks : List (Bool × Bool)} (agreed : ∀ p ∈ locks, p.1 = p.2)
    (counts : ∀ holders leavers, holders + (old.refers c).toNat = holdersIn s.tickets c + (new.refers c).toNat →
      leavers + (old.leaves c).toNat = leaversIn s.tickets c + (new.leaves c).toNat →
      (change (s.controls c)).Counts (ownersIn s.shared c) (droppersIn s.shared c) holders leavers) :
    Kept (({ s.access c change with locks }).setTicket i new) := by
  apply kept.changed refers _ _ _ agreed
  · intro d different
    obtain ⟨holders, leavers⟩ := ticketAbout_others here about about' different
    exact ⟨rfl, rfl, holders, leavers⟩
  · exact counts _ _ (countP_set _ new here) (countP_set _ new here)
  · intro d mem
    rcases mem_or_eq_of_mem_set mem with mem | same
    · exact kept.expected d mem
    · exact some_ d same.symm

theorem owns_some : (SharedHandle.holds (some c)).owns c = true := by simp [SharedHandle.owns]

theorem drops_dropping : (SharedHandle.dropping c).drops c = true := by simp [SharedHandle.drops]

theorem refers_some : (holds (some c)).refers c = true := by simp [refers]

theorem refers_locking {expected : Nat} : (locking c expected).refers c = true := by simp [refers]

theorem leaves_leaving : (leaving c).leaves c = true := by simp [leaves]

theorem owned (here : s.shared[i]? = some (.holds (some c))) : 0 < ownersIn s.shared c :=
  countP_pos_iff.mpr ⟨_, mem_of_getElem? here, owns_some⟩

theorem dropped (here : s.shared[i]? = some (.dropping c)) : 0 < droppersIn s.shared c :=
  countP_pos_iff.mpr ⟨_, mem_of_getElem? here, drops_dropping⟩

theorem held {handle : TicketHandle} (here : s.tickets[i]? = some handle) (refers : handle.refers c = true) :
    0 < holdersIn s.tickets c := countP_pos_iff.mpr ⟨_, mem_of_getElem? here, refers⟩

theorem left (here : s.tickets[i]? = some (.leaving c)) : 0 < leaversIn s.tickets c :=
  countP_pos_iff.mpr ⟨_, mem_of_getElem? here, leaves_leaving⟩

section

variable (kept : Kept s)

include kept

theorem Kept.references_owned (here : s.shared[i]? = some (.holds (some c))) : 0 < s.references c ∧ s.Balanced c := by
  have positive := owned here
  have refers : 0 < s.references c := by
    unfold references
    omega
  exact ⟨refers, kept.balanced c (kept.known c refers)⟩

theorem Kept.references_held {handle : TicketHandle} (here : s.tickets[i]? = some handle)
    (refers : handle.refers c = true) : 0 < s.references c ∧ s.Balanced c := by
  have positive := held here refers
  have refers : 0 < s.references c := by
    unfold references
    omega
  exact ⟨refers, kept.balanced c (kept.known c refers)⟩

variable {ctrl : Option Nat}

theorem copyShared_kept (empty : s.shared[i]? = some (.holds none)) (other : s.shared[j]? = some (.holds ctrl)) :
    Kept (s.copyShared i ctrl) := by
  cases ctrl with
  | none => exact kept.relistedShared fun p => by have := countP_set p (.holds none) empty; omega
  | some c =>
    obtain ⟨refers, balanced⟩ := kept.references_owned other
    apply kept.changedShared empty sharedAbout_none sharedAbout_some refers
    intro owners droppers more same
    rw [owns_some] at more
    obtain rfl : owners = ownersIn s.shared c + 1 := more
    obtain rfl : droppers = droppersIn s.shared c := same
    exact SharedControl.Counts.addStrong balanced (owned other)

theorem releaseShared_kept (this : s.shared[i]? = some (.holds ctrl)) : Kept (s.releaseShared i ctrl) := by
  cases ctrl with
  | none => exact kept
  | some c =>
    obtain ⟨refers, balanced⟩ := kept.references_owned this
    unfold releaseShared
    dsimp only
    split
    · rename_i last
      apply kept.changedShared this sharedAbout_some sharedAbout_dropping refers
      intro owners droppers less more
      rw [owns_some] at less
      rw [drops_dropping] at more
      unfold Balanced at balanced
      rw [show ownersIn s.shared c = owners + 1 from less.symm] at balanced
      obtain rfl : droppers = droppersIn s.shared c + 1 := more
      obtain rfl : owners = 0 := by
        have := balanced.strong
        omega
      exact balanced.destroyObject last
    · rename_i more
      apply kept.changedShared this sharedAbout_some sharedAbout_none refers
      intro owners droppers less same
      rw [owns_some] at less
      unfold Balanced at balanced
      rw [show ownersIn s.shared c = owners + 1 from less.symm] at balanced
      obtain rfl : droppers = droppersIn s.shared c := same
      exact balanced.subStrong more

theorem dropShared_kept (this : s.shared[i]? = some (.dropping c)) : Kept (s.dropShared i c) := by
  have positive := dropped this
  have refers : 0 < s.references c := by
    unfold references
    omega
  have balanced : s.Balanced c := kept.balanced c (kept.known c refers)
  unfold dropShared
  split
  · rename_i last
    apply kept.changedShared this sharedAbout_dropping sharedAbout_none refers
    intro owners droppers same less
    rw [drops_dropping] at less
    obtain rfl : owners = ownersIn s.shared c := same
    have less : droppers + 1 = droppersIn s.shared c := less
    exact balanced.deallocateSelf (by omega) last
  · rename_i more
    apply kept.changedShared this sharedAbout_dropping sharedAbout_none refers
    intro owners droppers same less
    rw [drops_dropping] at less
    obtain rfl : owners = ownersIn s.shared c := same
    have less : droppers + 1 = droppersIn s.shared c := less
    exact balanced.subWeak (by omega) more

theorem read_kept (refers : 0 < s.references c) : Kept (s.access c id) :=
  kept.changed refers (fun _ _ => ⟨rfl, rfl, rfl, rfl⟩) (kept.balanced c (kept.known c refers)) kept.expected kept.agreed

theorem copyTicket_kept (empty : s.tickets[i]? = some (.holds none))
    (other : ∀ c, ctrl = some c → 0 < ownersIn s.shared c + holdersIn s.tickets c) : Kept (s.copyTicket i ctrl) := by
  cases ctrl with
  | none => exact kept.relistedTickets fun p => by have := countP_set p (.holds none) empty; omega
  | some c =>
    have positive := other c rfl
    have refers : 0 < s.references c := by
      unfold references
      omega
    have balanced : s.Balanced c := kept.balanced c (kept.known c refers)
    apply kept.changedTicket empty ticketAbout_none ticketAbout_some refers (by simp) kept.agreed
    intro holders leavers more same
    rw [refers_some] at more
    obtain rfl : holders = holdersIn s.tickets c + 1 := more
    obtain rfl : leavers = leaversIn s.tickets c := same
    exact balanced.addWeak positive

theorem releaseTicket_kept (this : s.tickets[i]? = some (.holds ctrl)) : Kept (s.releaseTicket i ctrl) := by
  cases ctrl with
  | none => exact kept
  | some c =>
    obtain ⟨refers, balanced⟩ := kept.references_held this refers_some
    unfold releaseTicket
    dsimp only
    split
    · rename_i last
      apply kept.changedTicket this ticketAbout_some ticketAbout_leaving refers (by simp) kept.agreed
      intro holders leavers less more
      rw [refers_some] at less
      rw [leaves_leaving] at more
      obtain rfl : leavers = leaversIn s.tickets c + 1 := more
      exact balanced.leaves less last
    · rename_i more
      apply kept.changedTicket this ticketAbout_some ticketAbout_none refers (by simp) kept.agreed
      intro holders leavers less same
      rw [refers_some] at less
      obtain rfl : leavers = leaversIn s.tickets c := same
      have less : holders + 1 = holdersIn s.tickets c := less
      exact balanced.subWeak (by omega) more

theorem leaveTicket_kept (this : s.tickets[i]? = some (.leaving c)) : Kept (s.leaveTicket i c) := by
  have positive := left this
  have refers : 0 < s.references c := by
    unfold references
    omega
  have balanced : s.Balanced c := kept.balanced c (kept.known c refers)
  obtain ⟨leavers, more⟩ := Nat.exists_eq_succ_of_ne_zero (Nat.ne_of_gt positive)
  unfold Balanced at balanced
  rw [more] at balanced
  obtain ⟨unowned, freed⟩ := balanced.left
  unfold leaveTicket
  rw [if_pos unowned]
  apply kept.changedTicket this ticketAbout_leaving ticketAbout_none refers (by simp) kept.agreed
  intro holders leavers' same less
  rw [leaves_leaving] at less
  obtain rfl : holders = holdersIn s.tickets c := same
  obtain rfl : leavers' = leavers := by
    have less : leavers' + 1 = leaversIn s.tickets c := less
    omega
  exact freed

theorem seen_kept {handle : TicketHandle} (this : s.tickets[i]? = some handle) (about : TicketAbout c handle)
    (isRef : handle.refers c = true) (stays : handle.leaves c = false) : Kept (s.seen i c) := by
  obtain ⟨refers, balanced⟩ := kept.references_held this isRef
  unfold seen
  split
  · have dead : (s.controls c).alive = false := by
      have strong := balanced.strong
      have alive := balanced.alive
      rw [Bool.eq_false_iff]
      intro isAlive
      have := alive.mp isAlive
      omega
    apply kept.changedTicket this about ticketAbout_some refers (by simp)
    · intro p mem
      rcases mem_cons.mp mem with rfl | mem
      · show false = (update s.controls c _ c).alive
        rw [update_self]
        exact dead.symm
      · exact kept.agreed p mem
    · intro holders leavers same same'
      rw [isRef, refers_some] at same
      rw [stays] at same'
      obtain rfl : holders = holdersIn s.tickets c := Nat.add_right_cancel same
      obtain rfl : leavers = leaversIn s.tickets c := same'
      exact balanced
  · rename_i some_
    apply kept.changedTicket this about ticketAbout_locking refers _ kept.agreed
    · intro holders leavers same same'
      rw [isRef, refers_locking] at same
      rw [stays] at same'
      obtain rfl : holders = holdersIn s.tickets c := Nat.add_right_cancel same
      obtain rfl : leavers = leaversIn s.tickets c := same'
      exact balanced
    · intro d same
      exact some_ (locking.inj same).2

theorem exchange_kept {expected : Nat} (this : s.tickets[i]? = some (.locking c expected))
    (empty : s.shared[j]? = some (.holds none)) (spurious : Bool) : Kept (s.exchange i j c expected spurious) := by
  unfold exchange
  split
  · rename_i succeeds
    obtain ⟨refers, balanced⟩ := kept.references_held this refers_locking
    have strong := balanced.strong
    have owned : 0 < ownersIn s.shared c := by
      have some_ : expected ≠ 0 := by
        rintro rfl
        exact kept.expected c (mem_of_getElem? this)
      omega
    have sharedCounts := fun p => countP_set p (.holds (some c)) empty
    have ticketCounts := fun p => countP_set p (.holds (some c)) this
    let taken := s.access c fun control => { control with strong := expected + 1 }
    show Kept { taken with
      shared := s.shared.set j (.holds (some c))
      tickets := s.tickets.set i (.holds (some c))
      locks := (true, (taken.controls c).alive) :: s.locks }
    apply kept.changed refers
    · intro d different
      obtain ⟨owners, droppers⟩ := sharedAbout_others empty sharedAbout_none sharedAbout_some different
      obtain ⟨holders, leavers⟩ := ticketAbout_others this ticketAbout_locking ticketAbout_some different
      exact ⟨owners, droppers, holders, leavers⟩
    · have more := sharedCounts (SharedHandle.owns c)
      have same := ticketCounts (TicketHandle.refers c)
      rw [owns_some] at more
      rw [refers_some, refers_locking] at same
      have owners : ownersIn (s.shared.set j (.holds (some c))) c = ownersIn s.shared c + 1 := more
      have droppers : droppersIn (s.shared.set j (.holds (some c))) c = droppersIn s.shared c :=
        sharedCounts (SharedHandle.drops c)
      have holders : holdersIn (s.tickets.set i (.holds (some c))) c = holdersIn s.tickets c := Nat.add_right_cancel same
      have leavers : leaversIn (s.tickets.set i (.holds (some c))) c = leaversIn s.tickets c :=
        ticketCounts (leaves c)
      rw [owners, droppers, holders, leavers, ← succeeds.1]
      exact SharedControl.Counts.addStrong balanced owned
    · intro d mem
      rcases mem_or_eq_of_mem_set mem with mem | same
      · exact kept.expected d mem
      · cases same
    · intro p mem
      rcases mem_cons.mp mem with rfl | mem
      · show true = (update s.controls c _ c).alive
        rw [update_self]
        exact (balanced.alive.mpr owned).symm
      · exact kept.agreed p mem
  · exact seen_kept kept this ticketAbout_locking refers_locking rfl

theorem makeShared_kept (empty : s.shared[i]? = some (.holds none)) : Kept (s.makeShared i) := by
  have counts := fun p => countP_set p (.holds (some s.made)) empty
  have unknown : s.references s.made = 0 := by
    by_contra some_
    exact Nat.lt_irrefl _ (kept.known s.made (Nat.pos_of_ne_zero some_))
  have others : ∀ d, d ≠ s.made → ownersIn (s.shared.set i (.holds (some s.made))) d = ownersIn s.shared d ∧
      droppersIn (s.shared.set i (.holds (some s.made))) d = droppersIn s.shared d :=
    fun _ different => sharedAbout_others empty sharedAbout_none sharedAbout_some different
  refine ⟨?_, ?_, kept.expected, kept.safe, kept.agreed⟩
  · intro d known
    show (update s.controls s.made {} d).Counts (ownersIn (s.shared.set i (.holds (some s.made))) d)
      (droppersIn (s.shared.set i (.holds (some s.made))) d) (holdersIn s.tickets d) (leaversIn s.tickets d)
    by_cases same : d = s.made
    · subst same
      unfold references at unknown
      have more := counts (SharedHandle.owns s.made)
      rw [owns_some] at more
      have owners : ownersIn (s.shared.set i (.holds (some s.made))) s.made = ownersIn s.shared s.made + 1 := more
      have droppers : droppersIn (s.shared.set i (.holds (some s.made))) s.made = droppersIn s.shared s.made :=
        counts (SharedHandle.drops s.made)
      rw [update_self, owners, droppers, show ownersIn s.shared s.made = 0 by omega,
        show droppersIn s.shared s.made = 0 by omega, show holdersIn s.tickets s.made = 0 by omega,
        show leaversIn s.tickets s.made = 0 by omega]
      exact .made
    · rw [update_of_ne same, (others d same).1, (others d same).2]
      have known : d < s.made + 1 := known
      exact kept.balanced d (by omega)
  · intro d refers
    show d < s.made + 1
    by_cases same : d = s.made
    · omega
    have before := kept.known d (by
      unfold references
      rw [← (others d same).1, ← (others d same).2]
      exact refers)
    omega

theorem step_kept {s' : Handles} (step : Step s s') : Kept s' := by
  cases step with
  | makeShared empty => exact makeShared_kept kept empty
  | copyShared empty other => exact copyShared_kept kept empty other
  | moveShared empty other => exact kept.relistedShared fun p => countP_swap p other empty
  | swapShared this other => exact kept.relistedShared fun p => countP_swap p this other
  | releaseShared this => exact releaseShared_kept kept this
  | dropShared this => exact dropShared_kept kept this
  | readShared this => exact read_kept kept (kept.references_owned this).1
  | makeTicket empty other =>
    apply copyTicket_kept kept empty
    rintro c rfl
    exact Nat.add_pos_left (owned other) _
  | copyTicket empty other =>
    apply copyTicket_kept kept empty
    rintro c rfl
    exact Nat.add_pos_right _ (held other refers_some)
  | moveTicket empty other => exact kept.relistedTickets fun p => countP_swap p other empty
  | swapTicket this other => exact kept.relistedTickets fun p => countP_swap p this other
  | releaseTicket this => exact releaseTicket_kept kept this
  | leaveTicket this => exact leaveTicket_kept kept this
  | readTicket this => exact read_kept kept (kept.references_held this refers_some).1
  | @lock _ ctrl this =>
    cases ctrl with
    | none => exact kept
    | some c => exact seen_kept kept this ticketAbout_some refers_some rfl
  | exchange this empty spurious => exact exchange_kept kept this empty spurious

end

theorem start_kept (shared tickets : Nat) : Kept (start shared tickets) := by
  have none_ : ∀ c, (start shared tickets).references c = 0 := by
    intro c
    simp [references, start, ownersIn, droppersIn, holdersIn, leaversIn, countP_replicate, SharedHandle.owns,
      SharedHandle.drops, refers, leaves]
  refine ⟨?_, ?_, ?_, rfl, ?_⟩
  · intro c made
    exact absurd made (Nat.not_lt_zero c)
  · intro c refers
    rw [none_ c] at refers
    exact absurd refers (Nat.lt_irrefl 0)
  · intro c mem
    cases eq_of_mem_replicate mem
  · intro p mem
    cases mem

theorem reachable_kept (reachable : Reachable s) : Kept s := by
  obtain ⟨shared, tickets, run⟩ := reachable
  induction run with
  | refl => exact start_kept shared tickets
  | tail _ step kept => exact step_kept kept step

/-- An object is destroyed once, when no `Shared` owns it any more. A block is freed once, when no handle refers to it any
    more. No step touches a block after that, and `Lock` tells what is true at its last access. -/
structure Exact (s : Handles) : Prop where
  object : ∀ c, c < s.made → (s.controls c).destroyed = if 0 < ownersIn s.shared c then 0 else 1
  block : ∀ c, c < s.made → (s.controls c).freed = if 0 < s.references c then 0 else 1
  safe : s.faults = 0
  locks : ∀ p ∈ s.locks, p.1 = p.2

theorem handles_exact (s : Handles) (reachable : Reachable s) : s.Exact := by
  have kept := reachable_kept reachable
  refine ⟨fun c made => (kept.balanced c made).destroyed, ?_, kept.safe, kept.agreed⟩
  intro c made
  split
  · rename_i refers
    exact kept.unfreed refers
  rename_i unreferred
  have balanced := kept.balanced c made
  have weak := balanced.weak
  have freed := balanced.freed
  unfold references at unreferred
  rw [if_neg (by omega)] at weak
  rw [if_pos (by omega)] at freed
  omega

def lifetime : Handles :=
  let owned := (((start 2 1).makeShared 0).copyTicket 0 (some 0)).lock 0 (some 0)
  let released := ((owned.exchange 0 1 0 1 false).releaseShared 0 (some 0)).releaseShared 1 (some 0)
  ((released.dropShared 1 0).releaseTicket 0 (some 0)).leaveTicket 0 0

theorem handles_exact_lifetime : (lifetime.controls 0).destroyed = 1 ∧ (lifetime.controls 0).freed = 1 ∧
    lifetime.faults = 0 ∧ ∀ p ∈ lifetime.locks, p.1 = p.2 := by
  have made := Relation.ReflTransGen.single (Step.makeShared (rfl : (start 2 1).shared[0]? = some (.holds none)))
  have ticket := made.tail (Step.makeTicket (i := 0) (j := 0) rfl rfl)
  have locking := ticket.tail (Step.lock (i := 0) rfl)
  have locked := locking.tail (Step.exchange (i := 0) (j := 1) rfl rfl false)
  have released := locked.tail (Step.releaseShared (i := 0) rfl)
  have destroyed := released.tail (Step.releaseShared (i := 1) rfl)
  have dropped := destroyed.tail (Step.dropShared (i := 1) rfl)
  have leaving := dropped.tail (Step.releaseTicket (i := 0) rfl)
  have gone := leaving.tail (Step.leaveTicket (i := 0) rfl)
  have exactly := handles_exact lifetime ⟨2, 1, gone⟩
  exact ⟨exactly.object 0 (by decide), exactly.block 0 (by decide), exactly.safe, exactly.locks⟩

end Handles

end NginBase.Memory
