import NginBase.Library.Interleaving
import NginBase.Library.Tables

namespace NginBase.Execution

open Library Function

/-! `detail::JobPool`: four free lists that threads take blocks from and put blocks on without a lock. -/

namespace JobPool

inductive SizeClass
  | class64
  | class128
  | class256
  | class512
  deriving DecidableEq

def SizeClass.bytes : SizeClass → Nat
  | class64 => 64
  | class128 => 128
  | class256 => 256
  | class512 => 512

def poolAlignment : Nat := 16

def sizeClass (size : Nat) : Option SizeClass :=
  if size = 0 then none
  else if size ≤ 64 then some .class64
  else if size ≤ 128 then some .class128
  else if size ≤ 256 then some .class256
  else if size ≤ 512 then some .class512
  else none

/-- The class of the blocks of a request, unless it is passed on to `operator new`. -/
def pooled (size alignment : Nat) : Option SizeClass := if poolAlignment < alignment then none else sizeClass size

/-- Where a thread is between two of its atomic steps. `again` says that `Refill` has been called; `rest` are the blocks of
    a new slab that are still to be pushed, and `none` when `Deallocate` pushes. -/
inductive Phase
  | idle
  | popLoad (c : SizeClass) (again : Bool)
  | popNext (c : SizeClass) (again : Bool) (node : Nat)
  | popSwap (c : SizeClass) (again : Bool) (node next : Nat)
  | popClear (c : SizeClass) (node : Nat)
  | refill (c : SizeClass)
  | fallback (c : SizeClass)
  | pushLoad (c : SizeClass) (node : Nat) (rest : Option (List Nat))
  | pushNext (c : SizeClass) (node cur : Nat) (rest : Option (List Nat))
  | pushSwap (c : SizeClass) (node cur : Nat) (rest : Option (List Nat))
  deriving DecidableEq

def Phase.hands (c : SizeClass) : Phase → List Nat
  | .popClear d node => if d = c then [node] else []
  | .pushLoad d node rest => if d = c then node :: rest.getD [] else []
  | .pushNext d node _ rest => if d = c then node :: rest.getD [] else []
  | .pushSwap d node _ rest => if d = c then node :: rest.getD [] else []
  | _ => []

/-- `blocks` are all blocks of a class that were ever made, and `held` those that a holder has, as often as it was given. -/
structure State where
  heads : SizeClass → Nat := fun _ => 0
  next : Nat → Nat := fun _ => 0
  blocks : SizeClass → List Nat := fun _ => []
  held : SizeClass → List Nat := fun _ => []
  threads : List Phase

/-- What happens next. A step may have its compare-exchange fail without a reason, and a fresh address for new memory. -/
inductive Action
  | allocate (thread size alignment : Nat)
  | deallocate (thread size alignment node : Nat)
  | step (thread : Nat) (spurious : Bool) (fresh : Nat)
  /-- A holder writes into its block. -/
  | write (c : SizeClass) (node value : Nat)

namespace State

variable (s : State)

def start (threads : Nat) : State := { threads := List.replicate threads .idle }

def hands (c : SizeClass) : List Nat := s.threads.flatMap (Phase.hands c)

def setThread (t : Nat) (phase : Phase) : State := { s with threads := s.threads.set t phase }

def setHead (c : SizeClass) (node : Nat) : State := { s with heads := update s.heads c node }

def setNext (node value : Nat) : State := { s with next := update s.next node value }

def addBlocks (c : SizeClass) (nodes : List Nat) : State :=
  { s with blocks := update s.blocks c (nodes ++ s.blocks c) }

def hold (c : SizeClass) (node : Nat) : State := { s with held := update s.held c (node :: s.held c) }

def release (c : SizeClass) (node : Nat) : State := { s with held := update s.held c ((s.held c).erase node) }

def Unused (nodes : List Nat) : Prop := nodes.Nodup ∧ ∀ node ∈ nodes, node ≠ 0 ∧ ∀ c, node ∉ s.blocks c

instance : DecidablePred s.Unused := fun nodes =>
  decidable_of_iff (nodes.Nodup ∧ ∀ node ∈ nodes, node ≠ 0 ∧ node ∉ s.blocks .class64 ∧ node ∉ s.blocks .class128 ∧
      node ∉ s.blocks .class256 ∧ node ∉ s.blocks .class512)
    (and_congr_right fun _ => forall_congr' fun _ => imp_congr_right fun _ => and_congr_right fun _ =>
      ⟨fun ⟨a, b, c, d⟩ => fun | .class64 => a | .class128 => b | .class256 => c | .class512 => d,
        fun all => ⟨all _, all _, all _, all _⟩⟩)

def popFrom (t : Nat) (c : SizeClass) (again : Bool) (node : Nat) : State :=
  s.setThread t (if node ≠ 0 then .popNext c again node else if again then .fallback c else .refill c)

def slabBlocks (c : SizeClass) (slab : Nat) : List Nat := (List.range 64).map fun i => slab + i * c.bytes

/-- After a `Push`, either the next block of the slab is pushed, or `Allocate` pops again, or `Deallocate` returns. -/
def pushed (t : Nat) (c : SizeClass) : Option (List Nat) → State
  | some (node :: rest) => s.setThread t (.pushLoad c node (some rest))
  | some [] => s.setThread t (.popLoad c true)
  | none => s.setThread t .idle

def step (t : Nat) (spurious : Bool) (fresh : Nat) : Option State :=
  match s.threads[t]? with
  | none => none
  | some .idle => none
  | some (.popLoad c again) => some (s.popFrom t c again (s.heads c))
  | some (.popNext c again node) => some (s.setThread t (.popSwap c again node (s.next node)))
  | some (.popSwap c again node next) =>
    if spurious = false ∧ s.heads c = node then some ((s.setHead c next).setThread t (.popClear c node))
    else some (s.popFrom t c again (s.heads c))
  | some (.popClear c node) => some (((s.setNext node 0).hold c node).setThread t .idle)
  | some (.refill c) =>
    if s.Unused (slabBlocks c fresh) then
      some ((s.addBlocks c (slabBlocks c fresh)).pushed t c (some (slabBlocks c fresh)))
    else none
  | some (.fallback c) =>
    if s.Unused [fresh] then some (((s.addBlocks c [fresh]).hold c fresh).setThread t .idle) else none
  | some (.pushLoad c node rest) => some (s.setThread t (.pushNext c node (s.heads c) rest))
  | some (.pushNext c node cur rest) => some ((s.setNext node cur).setThread t (.pushSwap c node cur rest))
  | some (.pushSwap c node cur rest) =>
    if spurious = false ∧ s.heads c = cur then some ((s.setHead c node).pushed t c rest)
    else some (s.setThread t (.pushNext c node (s.heads c) rest))

/-- Requests that do not go to the pool take or give back memory of their own. -/
def act : Action → Option State
  | .allocate t size alignment =>
    if s.threads[t]? = some .idle then
      match pooled size alignment with
      | some c => some (s.setThread t (.popLoad c false))
      | none => some s
    else none
  | .deallocate t size alignment node =>
    if s.threads[t]? = some .idle then
      match pooled size alignment with
      | some c => if node ∈ s.held c then some ((s.release c node).setThread t (.pushLoad c node none)) else none
      | none => some s
    else none
  | .step t spurious fresh => s.step t spurious fresh
  | .write c node value => if node ∈ s.held c then some (s.setNext node value) else none

/-- No block has two holders, no held block is on a free list, and every block is on the free list of its class, held, or
    in the hands of a running call. -/
structure Apart : Prop where
  once : ∀ c, (s.held c).Nodup
  classes : ∀ c d node, node ∈ s.held c → node ∈ s.held d → c = d
  free : ∀ c d node, node ∈ s.held c → ¬ OnList s.next node (s.heads d)
  kept : ∀ c, ∀ node ∈ s.blocks c, OnList s.next node (s.heads c) ∨ node ∈ s.held c ∨ node ∈ s.hands c

/-- When a `Pop` is about to take the head away, what it read as the next block is still next. -/
def Current : Phase → Prop
  | .popSwap c _ node next => s.heads c = node → s.next node = next
  | _ => True

instance : DecidablePred s.Current
  | .popSwap c _ node next => inferInstanceAs (Decidable (s.heads c = node → s.next node = next))
  | .idle | .popLoad .. | .popNext .. | .popClear .. | .refill .. | .fallback .. | .pushLoad .. | .pushNext .. | .pushSwap .. =>
    .isTrue trivial

def Unchanged : Action → Prop
  | .step t false _ => ∀ p ∈ s.threads[t]?, s.Current p
  | _ => True

instance : DecidablePred s.Unchanged
  | .step t false _ => inferInstanceAs (Decidable (∀ p ∈ s.threads[t]?, s.Current p))
  | .step _ true _ | .allocate .. | .deallocate .. | .write .. => .isTrue trivial

end State

end JobPool

end NginBase.Execution
