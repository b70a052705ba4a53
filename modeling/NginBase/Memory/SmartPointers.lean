import Mathlib

namespace NginBase.Memory

/-- The counters, and what has been done to the object and to the block itself. -/
structure SharedControl where
  strong : Nat := 1
  weak : Nat := 1
  alive : Bool := true
  destroyed : Nat := 0
  freed : Nat := 0

namespace SharedControl

variable (control : SharedControl)

def addStrong : SharedControl := { control with strong := control.strong + 1 }

def subStrong : SharedControl := { control with strong := control.strong - 1 }

def addWeak : SharedControl := { control with weak := control.weak + 1 }

def subWeak : SharedControl := { control with weak := control.weak - 1 }

def destroyObject : SharedControl :=
  if control.alive then { control with alive := false, destroyed := control.destroyed + 1 } else control

def deallocateSelf : SharedControl := { control with freed := control.freed + 1 }

end SharedControl

/-- A `Shared`, which a thread may have left inside `Release`. -/
inductive SharedHandle
  | holds (ctrl : Option Nat)
  /-- The object is destroyed, and the weak reference of the owners is still to be dropped. -/
  | dropping (ctrl : Nat)

/-- A `Ticket`, which a thread may have left inside `Release` or `Lock`. -/
inductive TicketHandle
  | holds (ctrl : Option Nat)
  /-- The weak count has become 0, and the strong count is still to be read. -/
  | leaving (ctrl : Nat)
  /-- The loop of `Lock` has read a strong count. -/
  | locking (ctrl expected : Nat)

/-- What all threads share. `faults` counts the accesses to freed control blocks. Every `Lock` adds whether it yielded a
    `Shared`, and whether the object was alive at its last access to the counter. -/
structure Handles where
  controls : Nat → SharedControl := fun _ => {}
  made : Nat := 0
  shared : List SharedHandle
  tickets : List TicketHandle
  faults : Nat := 0
  locks : List (Bool × Bool) := []

namespace Handles

variable (s : Handles)

def access (c : Nat) (change : SharedControl → SharedControl) : Handles :=
  { s with
    controls := Function.update s.controls c (change (s.controls c))
    faults := if (s.controls c).freed = 0 then s.faults else s.faults + 1 }

def setShared (i : Nat) (handle : SharedHandle) : Handles := { s with shared := s.shared.set i handle }

def setTicket (i : Nat) (handle : TicketHandle) : Handles := { s with tickets := s.tickets.set i handle }

def locked (yields : Bool) (c : Nat) : Handles := { s with locks := (yields, (s.controls c).alive) :: s.locks }

def makeShared (i : Nat) : Handles :=
  { s with
    controls := Function.update s.controls s.made {}
    made := s.made + 1
    shared := s.shared.set i (.holds (some s.made)) }

def copyShared (i : Nat) : Option Nat → Handles
  | none => s.setShared i (.holds none)
  | some c => (s.access c SharedControl.addStrong).setShared i (.holds (some c))

def releaseShared (i : Nat) : Option Nat → Handles
  | none => s
  | some c =>
    if (s.controls c).strong = 1 then
      (s.access c fun control => control.subStrong.destroyObject).setShared i (.dropping c)
    else (s.access c SharedControl.subStrong).setShared i (.holds none)

def dropShared (i c : Nat) : Handles :=
  if (s.controls c).weak = 1 then
    (s.access c fun control => control.subWeak.deallocateSelf).setShared i (.holds none)
  else (s.access c SharedControl.subWeak).setShared i (.holds none)

def copyTicket (i : Nat) : Option Nat → Handles
  | none => s.setTicket i (.holds none)
  | some c => (s.access c SharedControl.addWeak).setTicket i (.holds (some c))

def releaseTicket (i : Nat) : Option Nat → Handles
  | none => s
  | some c =>
    if (s.controls c).weak = 1 then (s.access c SharedControl.subWeak).setTicket i (.leaving c)
    else (s.access c SharedControl.subWeak).setTicket i (.holds none)

def leaveTicket (i c : Nat) : Handles :=
  if (s.controls c).strong = 0 then (s.access c SharedControl.deallocateSelf).setTicket i (.holds none)
  else (s.access c id).setTicket i (.holds none)

def seen (i c : Nat) : Handles :=
  if (s.controls c).strong = 0 then ((s.access c id).locked false c).setTicket i (.holds (some c))
  else (s.access c id).setTicket i (.locking c (s.controls c).strong)

def lock (i : Nat) : Option Nat → Handles
  | none => s
  | some c => s.seen i c

/-- A weak compare-exchange may fail for no reason. What it yields is constructed in the handle `j`. -/
def exchange (i j c expected : Nat) (spurious : Bool) : Handles :=
  if (s.controls c).strong = expected ∧ ¬spurious then
    (((s.access c fun control => { control with strong := expected + 1 }).locked true c).setShared j (.holds (some c))).setTicket
      i (.holds (some c))
  else s.seen i c

/-- The steps of all threads. A handle is constructed where there is none, and nobody else uses it. Assignments are a
    release and a construction, and `Reset` and the destructors are a release. -/
inductive Step : Handles → Handles → Prop
  | makeShared {s : Handles} {i : Nat} (empty : s.shared[i]? = some (.holds none)) : Step s (s.makeShared i)
  | copyShared {s : Handles} {i j : Nat} {ctrl : Option Nat} (empty : s.shared[i]? = some (.holds none))
      (other : s.shared[j]? = some (.holds ctrl)) : Step s (s.copyShared i ctrl)
  | moveShared {s : Handles} {i j : Nat} {ctrl : Option Nat} (empty : s.shared[i]? = some (.holds none))
      (other : s.shared[j]? = some (.holds ctrl)) : Step s ((s.setShared j (.holds none)).setShared i (.holds ctrl))
  | swapShared {s : Handles} {i j : Nat} {ctrl ctrl' : Option Nat} (this : s.shared[i]? = some (.holds ctrl))
      (other : s.shared[j]? = some (.holds ctrl')) : Step s ((s.setShared i (.holds ctrl')).setShared j (.holds ctrl))
  | releaseShared {s : Handles} {i : Nat} {ctrl : Option Nat} (this : s.shared[i]? = some (.holds ctrl)) :
      Step s (s.releaseShared i ctrl)
  | dropShared {s : Handles} {i c : Nat} (this : s.shared[i]? = some (.dropping c)) : Step s (s.dropShared i c)
  /-- `Get`, `UseCount` and `Expired` -/
  | readShared {s : Handles} {i c : Nat} (this : s.shared[i]? = some (.holds (some c))) : Step s (s.access c id)
  | makeTicket {s : Handles} {i j : Nat} {ctrl : Option Nat} (empty : s.tickets[i]? = some (.holds none))
      (other : s.shared[j]? = some (.holds ctrl)) : Step s (s.copyTicket i ctrl)
  | copyTicket {s : Handles} {i j : Nat} {ctrl : Option Nat} (empty : s.tickets[i]? = some (.holds none))
      (other : s.tickets[j]? = some (.holds ctrl)) : Step s (s.copyTicket i ctrl)
  | moveTicket {s : Handles} {i j : Nat} {ctrl : Option Nat} (empty : s.tickets[i]? = some (.holds none))
      (other : s.tickets[j]? = some (.holds ctrl)) : Step s ((s.setTicket j (.holds none)).setTicket i (.holds ctrl))
  | swapTicket {s : Handles} {i j : Nat} {ctrl ctrl' : Option Nat} (this : s.tickets[i]? = some (.holds ctrl))
      (other : s.tickets[j]? = some (.holds ctrl')) : Step s ((s.setTicket i (.holds ctrl')).setTicket j (.holds ctrl))
  | releaseTicket {s : Handles} {i : Nat} {ctrl : Option Nat} (this : s.tickets[i]? = some (.holds ctrl)) :
      Step s (s.releaseTicket i ctrl)
  | leaveTicket {s : Handles} {i c : Nat} (this : s.tickets[i]? = some (.leaving c)) : Step s (s.leaveTicket i c)
  | readTicket {s : Handles} {i c : Nat} (this : s.tickets[i]? = some (.holds (some c))) : Step s (s.access c id)
  | lock {s : Handles} {i : Nat} {ctrl : Option Nat} (this : s.tickets[i]? = some (.holds ctrl)) : Step s (s.lock i ctrl)
  | exchange {s : Handles} {i j c expected : Nat} (this : s.tickets[i]? = some (.locking c expected))
      (empty : s.shared[j]? = some (.holds none)) (spurious : Bool) : Step s (s.exchange i j c expected spurious)

def start (shared tickets : Nat) : Handles :=
  { shared := List.replicate shared (.holds none), tickets := List.replicate tickets (.holds none) }

def Reachable (s : Handles) : Prop := ∃ shared tickets, Relation.ReflTransGen Step (start shared tickets) s

end Handles

end NginBase.Memory
