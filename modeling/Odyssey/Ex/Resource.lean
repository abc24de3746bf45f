import Mathlib.Tactic

/-! Executive resources (ntoskrnl/ex/resource.c): the owner entries of a resource, the locked
sections of the routines that acquire, convert and release it, and the interleavings of the threads
that run them. A routine gives its lock up to allocate and to wait; each part between two such
points is one step here. -/
namespace Odyssey.Ex

variable {τ : Type*} [DecidableEq τ]

/-- `OwnerThread` of an owner entry: 0, the mark 1 of a resource that was given to an exclusive
waiter which has not run yet, or a thread. -/
inductive OwnerThread (τ : Type*) where
  | none
  | handed
  | thread (t : τ)
deriving DecidableEq

/-- `OwnerCount` is a field of 30 bits. -/
def ownerCountLimit : Nat := 2^30

structure OwnerEntry (τ : Type*) where
  ownerThread : OwnerThread τ
  ownerCount : Nat
deriving DecidableEq

def OwnerEntry.free : OwnerEntry τ := ⟨.none,0⟩

inductive Slot where
  | first
  | table (i : Nat)
deriving DecidableEq

structure Resource (τ : Type*) where
  ownerTable : Option (List (OwnerEntry τ))
  activeCount : Nat
  ownedExclusive : Bool
  sharedWaiters : Option Nat
  exclusiveWaiters : Option Bool
  ownerEntry : OwnerEntry τ
  activeEntries : Nat
  numberOfSharedWaiters : Nat
  numberOfExclusiveWaiters : Nat

namespace Resource

def init : Resource τ where
  ownerTable := none
  activeCount := 0
  ownedExclusive := false
  sharedWaiters := none
  exclusiveWaiters := none
  ownerEntry := .free
  activeEntries := 0
  numberOfSharedWaiters := 0
  numberOfExclusiveWaiters := 0

def isExclusiveWaiting (r : Resource τ) : Bool := 0<r.numberOfExclusiveWaiters

def isSharedWaiting (r : Resource τ) : Bool := 0<r.numberOfSharedWaiters

def tableSize (r : Resource τ) : Nat :=
  match r.ownerTable with
  | none => 0
  | some table => table.length+1

def entry (r : Resource τ) : Slot → Option (OwnerEntry τ)
  | .first => some r.ownerEntry
  | .table i => (r.ownerTable.getD [])[i]?

def setEntry (r : Resource τ) (slot : Slot) (e : OwnerEntry τ) : Resource τ :=
  match slot with
  | .first => { r with ownerEntry := e }
  | .table i => { r with ownerTable := r.ownerTable.map fun table => table.set i e }

def isOwner (r : Resource τ) (slot : Slot) (t : τ) : Bool :=
  (r.entry slot).any fun e => e.ownerThread = .thread t

def countUp (r : Resource τ) (slot : Slot) : Resource τ :=
  match r.entry slot with
  | none => r
  | some e => r.setEntry slot { e with ownerCount := (e.ownerCount+1)%ownerCountLimit }

def expExpandResourceOwnerTable (r : Resource τ) (oldSize : Nat) : Resource τ :=
  if r.tableSize≠oldSize then r
  else
    match r.ownerTable with
    | none => { r with ownerTable := some (List.replicate 2 .free) }
    | some table => { r with ownerTable := some (table++List.replicate 4 .free) }

def expFindFreeEntry (r : Resource τ) : Option Slot :=
  match r.ownerTable with
  | none => none
  | some table => (table.findIdx? fun e => e.ownerThread = .none).map .table

def expFindEntryForThread (r : Resource τ) (t : τ) (firstEntryInelligible : Bool) : Option Slot :=
  if r.ownerEntry.ownerThread = .thread t then some .first
  else
    let freeEntry : Option Slot :=
      if firstEntryInelligible ∨ r.ownerEntry.ownerThread ≠ .none then none else some .first
    match r.ownerTable with
    | none => freeEntry
    | some table =>
      match table.findIdx? fun e => e.ownerThread = .thread t with
      | some i => some (.table i)
      | none => freeEntry.or ((table.findIdx? fun e => e.ownerThread = .none).map .table)

def takeFirst (r : Resource τ) (t : τ) : Resource τ :=
  { r with activeEntries := 1, activeCount := 1, ownerEntry := ⟨.thread t,1⟩ }

def takeShared (r : Resource τ) (t : τ) (slot : Slot) : Resource τ :=
  let r := r.setEntry slot ⟨.thread t,1⟩
  if r.activeEntries=0 then { r with activeEntries := 1, activeCount := 1 }
  else { r with activeEntries := r.activeEntries+1 }

def giveExclusive (r : Resource τ) : Resource τ :=
  { r with
    ownedExclusive := true
    ownerEntry := ⟨.handed,1⟩
    activeEntries := 1
    numberOfExclusiveWaiters := r.numberOfExclusiveWaiters-1 }

end Resource

inductive Routine where
  | exAcquireResourceExclusiveLite
  | exAcquireResourceSharedLite
  | exAcquireSharedStarveExclusive
  | exAcquireSharedWaitForExclusive
deriving DecidableEq

inductive Pc where
  /-- Outside of the routines. -/
  | running
  /-- Before the locked section of the routine, at its start or at a new try. -/
  | acquiring (f : Routine) (wait : Bool)
  /-- In `ExpAllocateExclusiveWaiterEvent`. -/
  | allocatingEvent (wait : Bool)
  /-- In `ExpAllocateSharedWaiterSemaphore`. -/
  | allocatingSemaphore (f : Routine) (wait : Bool)
  /-- In `ExpExpandResourceOwnerTable`, having read the size of the old table. -/
  | expanding (f : Routine) (wait : Bool) (oldSize : Nat)
  /-- Waiting for the event. -/
  | waitingExclusive
  /-- After the wait for the event, before it writes itself to the owner entry. -/
  | wokenExclusive
  /-- Waiting for the semaphore, with an entry of the owner table or without. -/
  | waitingShared (registered : Bool)
  /-- After the wait for the semaphore, before it has found an entry. -/
  | woken
  /-- The same, in `ExpExpandResourceOwnerTable`. -/
  | wokenExpanding (oldSize : Nat)
  /-- Before its `KeReleaseSemaphore` of so many units. -/
  | releasingSemaphore (count : Nat)
  /-- Before its `KeSetEventBoostPriority`. -/
  | settingEvent
  /-- Stopped by `KeBugCheckEx(RESOURCE_NOT_OWNED)`. -/
  | bugchecked
deriving DecidableEq

/-- A thread, with its acquisitions minus its releases, and whether the first of them was exclusive
and has not been converted. The routines read neither. -/
structure Thread where
  pc : Pc
  held : Nat
  exclusive : Bool

namespace Thread

def granted (th : Thread) (exclusive : Bool) : Thread where
  pc := .running
  held := th.held+1
  exclusive := if th.held=0 then exclusive else th.exclusive

def goto (th : Thread) (pc : Pc) : Thread := { th with pc := pc }

def released (th : Thread) (pc : Pc) : Thread := { th with pc := pc, held := th.held-1 }

end Thread

open Resource

def exAcquireResourceExclusiveLite (r : Resource τ) (t : τ) (th : Thread) (wait : Bool) :
    Resource τ × Thread :=
  if r.activeEntries≠0 then
    if r.ownedExclusive ∧ r.ownerEntry.ownerThread = .thread t then
      (r.countUp .first, th.granted true)
    else if ¬ wait then (r, th.goto .running)
    else
      match r.exclusiveWaiters with
      | none => (r, th.goto (.allocatingEvent wait))
      | some _ =>
        ({ r with numberOfExclusiveWaiters := r.numberOfExclusiveWaiters+1 },
          th.goto .waitingExclusive)
  else ({ r.takeFirst t with ownedExclusive := true }, th.granted true)

def waitWithEntry (r : Resource τ) (t : τ) (th : Thread) (f : Routine) (wait : Bool) (slot : Slot) :
    Resource τ × Thread :=
  if ¬ wait then (r, th.goto .running)
  else
    match r.sharedWaiters with
    | none => (r, th.goto (.allocatingSemaphore f wait))
    | some _ =>
      ({ r.setEntry slot ⟨.thread t,1⟩ with numberOfSharedWaiters := r.numberOfSharedWaiters+1 },
        th.goto (.waitingShared true))

def acquireOwnedExclusive (r : Resource τ) (t : τ) (th : Thread) (f : Routine) (wait : Bool) :
    Resource τ × Thread :=
  if r.ownerEntry.ownerThread = .thread t then (r.countUp .first, th.granted false)
  else
    match r.expFindFreeEntry with
    | none => (r, th.goto (.expanding f wait r.tableSize))
    | some slot => waitWithEntry r t th f wait slot

def exAcquireResourceSharedLite (r : Resource τ) (t : τ) (th : Thread) (wait : Bool) :
    Resource τ × Thread :=
  if r.activeEntries≠0 then
    if r.ownedExclusive then acquireOwnedExclusive r t th .exAcquireResourceSharedLite wait
    else
      let firstEntryBusy := r.isExclusiveWaiting
      match r.expFindEntryForThread t firstEntryBusy with
      | none => (r, th.goto (.expanding .exAcquireResourceSharedLite wait r.tableSize))
      | some slot =>
        if r.isOwner slot t then (r.countUp slot, th.granted false)
        else if ¬ firstEntryBusy then (r.takeShared t slot, th.granted false)
        else waitWithEntry r t th .exAcquireResourceSharedLite wait slot
  else (r.takeFirst t, th.granted false)

def exAcquireSharedStarveExclusive (r : Resource τ) (t : τ) (th : Thread) (wait : Bool) :
    Resource τ × Thread :=
  if r.activeEntries=0 then (r.takeFirst t, th.granted false)
  else if r.ownedExclusive then acquireOwnedExclusive r t th .exAcquireSharedStarveExclusive wait
  else
    match r.expFindEntryForThread t false with
    | none => (r, th.goto (.expanding .exAcquireSharedStarveExclusive wait r.tableSize))
    | some slot =>
      if r.isOwner slot t then (r.countUp slot, th.granted false)
      else (r.takeShared t slot, th.granted false)

def exAcquireSharedWaitForExclusive (r : Resource τ) (t : τ) (th : Thread) (wait : Bool) :
    Resource τ × Thread :=
  if r.activeEntries=0 then (r.takeFirst t, th.granted false)
  else if r.ownedExclusive then acquireOwnedExclusive r t th .exAcquireSharedWaitForExclusive wait
  else if r.isExclusiveWaiting then
    if ¬ wait then (r, th.goto .running)
    else
      match r.sharedWaiters with
      | none => (r, th.goto (.allocatingSemaphore .exAcquireSharedWaitForExclusive wait))
      | some _ =>
        ({ r with numberOfSharedWaiters := r.numberOfSharedWaiters+1 },
          th.goto (.waitingShared false))
  else
    match r.expFindEntryForThread t false with
    | none => (r, th.goto (.expanding .exAcquireSharedWaitForExclusive wait r.tableSize))
    | some slot =>
      if r.isOwner slot t then (r.countUp slot, th.granted false)
      else (r.takeShared t slot, th.granted false)

def registerWoken (r : Resource τ) (t : τ) (th : Thread) : Resource τ × Thread :=
  match r.expFindEntryForThread t true with
  | none => (r, th.goto (.wokenExpanding r.tableSize))
  | some slot => (r.setEntry slot ⟨.thread t,1⟩, th.granted false)

def exTryToAcquireResourceExclusiveLite (r : Resource τ) (t : τ) (th : Thread) :
    Resource τ × Thread :=
  if r.activeCount=0 then ({ r.takeFirst t with ownedExclusive := true }, th.granted true)
  else if r.ownedExclusive ∧ r.ownerEntry.ownerThread = .thread t then
    (r.countUp .first, th.granted true)
  else (r, th)

def exConvertExclusiveToSharedLite (r : Resource τ) (th : Thread) : Resource τ × Thread :=
  let r := { r with ownedExclusive := false }
  let th := { th with exclusive := false }
  if r.isSharedWaiting then
    ({ r with
        activeEntries := r.activeEntries+r.numberOfSharedWaiters
        numberOfSharedWaiters := 0 },
      th.goto (.releasingSemaphore r.numberOfSharedWaiters))
  else (r, th)

def countDown (c : Nat) : Nat := if c=0 then ownerCountLimit-1 else c-1

def releaseExclusive (r : Resource τ) (th : Thread) : Resource τ × Thread :=
  let count := countDown r.ownerEntry.ownerCount
  if count≠0 then
    ({ r with ownerEntry := { r.ownerEntry with ownerCount := count } }, th.released .running)
  else
    let r := { r with ownerEntry := ⟨.none,count⟩, activeEntries := r.activeEntries-1 }
    if r.isSharedWaiting then
      ({ r with
          ownedExclusive := false
          activeEntries := r.numberOfSharedWaiters
          numberOfSharedWaiters := 0 },
        th.released (.releasingSemaphore r.numberOfSharedWaiters))
    else if r.isExclusiveWaiting then (r.giveExclusive, th.released .settingEvent)
    else ({ r with ownedExclusive := false, activeCount := 0 }, th.released .running)

def findOwner (r : Resource τ) (t : τ) (resourceIndex : Nat) : Option Slot :=
  if r.ownerEntry.ownerThread = .thread t then some .first
  else if 1≤resourceIndex ∧ r.isOwner (.table (resourceIndex-1)) t then
    some (.table (resourceIndex-1))
  else ((r.ownerTable.getD []).findIdx? fun e => e.ownerThread = .thread t).map .table

def releaseShared (r : Resource τ) (th : Thread) (slot : Slot) (e : OwnerEntry τ) :
    Resource τ × Thread :=
  let count := countDown e.ownerCount
  if count≠0 then (r.setEntry slot { e with ownerCount := count }, th.released .running)
  else
    let r := r.setEntry slot ⟨.none,count⟩
    let r := { r with activeEntries := r.activeEntries-1 }
    if r.activeEntries=0 then
      if r.isExclusiveWaiting then (r.giveExclusive, th.released .settingEvent)
      else ({ r with activeCount := 0 }, th.released .running)
    else (r, th.released .running)

def exReleaseResourceForThreadLite (r : Resource τ) (t : τ) (th : Thread) (resourceIndex : Nat) :
    Resource τ × Thread :=
  if r.ownedExclusive then releaseExclusive r th
  else
    match findOwner r t resourceIndex with
    | none => (r, th.goto .bugchecked)
    | some slot =>
      match r.entry slot with
      | none => (r, th.goto .bugchecked)
      | some e => releaseShared r th slot e

def proceed (r : Resource τ) (t : τ) (th : Thread) : Resource τ × Thread :=
  match th.pc with
  | .running | .bugchecked => (r, th)
  | .acquiring .exAcquireResourceExclusiveLite wait => exAcquireResourceExclusiveLite r t th wait
  | .acquiring .exAcquireResourceSharedLite wait => exAcquireResourceSharedLite r t th wait
  | .acquiring .exAcquireSharedStarveExclusive wait => exAcquireSharedStarveExclusive r t th wait
  | .acquiring .exAcquireSharedWaitForExclusive wait => exAcquireSharedWaitForExclusive r t th wait
  | .allocatingEvent wait =>
    ({ r with exclusiveWaiters := some (r.exclusiveWaiters.getD false) },
      th.goto (.acquiring .exAcquireResourceExclusiveLite wait))
  | .allocatingSemaphore f wait =>
    ({ r with sharedWaiters := some (r.sharedWaiters.getD 0) }, th.goto (.acquiring f wait))
  | .expanding f wait oldSize =>
    (r.expExpandResourceOwnerTable oldSize, th.goto (.acquiring f wait))
  | .waitingExclusive =>
    -- the event resets itself when it satisfies a wait
    ({ r with exclusiveWaiters := some false }, th.goto .wokenExclusive)
  | .wokenExclusive =>
    ({ r with ownerEntry := { r.ownerEntry with ownerThread := .thread t } }, th.granted true)
  | .waitingShared registered =>
    ({ r with sharedWaiters := r.sharedWaiters.map (· - 1) },
      if registered then th.granted false else th.goto .woken)
  | .woken => registerWoken r t th
  | .wokenExpanding oldSize => (r.expExpandResourceOwnerTable oldSize, th.goto .woken)
  | .releasingSemaphore count =>
    ({ r with sharedWaiters := r.sharedWaiters.map (· + count) }, th.goto .running)
  | .settingEvent => ({ r with exclusiveWaiters := some true }, th.goto .running)

/-- A wait ends only when its object is signalled; every other step inside a routine can be
taken. -/
def Thread.canProceed (th : Thread) (r : Resource τ) : Bool :=
  match th.pc with
  | .running | .bugchecked => false
  | .waitingExclusive => r.exclusiveWaiters=some true
  | .waitingShared _ => 0<r.sharedWaiters.getD 0
  | _ => true

structure State (τ : Type*) where
  resource : Resource τ
  threads : τ → Thread

namespace State

def init : State τ := ⟨.init,fun _ => ⟨.running,0,false⟩⟩

def act (s : State τ) (t : τ) (f : Resource τ → Thread → Resource τ × Thread) : State τ :=
  let next := f s.resource (s.threads t)
  ⟨next.1,Function.update s.threads t next.2⟩

end State

/-- What can happen next: a thread calls a routine or goes on inside one. With `wakeOwner` the
thread's `KeSetEventBoostPriority` finds a thread in the event's wait list: it writes that thread to
the owner entry and ends its wait at once. -/
inductive Action (τ : Type*) where
  | acquire (t : τ) (f : Routine) (wait : Bool)
  | tryToAcquire (t : τ)
  | convert (t : τ)
  | release (t : τ) (resourceIndex : Nat)
  | proceed (t : τ)
  | wakeOwner (t w : τ)

namespace State

def step (s : State τ) : Action τ → State τ
  | .acquire t f wait => s.act t fun r th => (r, th.goto (.acquiring f wait))
  | .tryToAcquire t => s.act t fun r th => exTryToAcquireResourceExclusiveLite r t th
  | .convert t => s.act t exConvertExclusiveToSharedLite
  | .release t resourceIndex =>
    s.act t fun r th => exReleaseResourceForThreadLite r t th resourceIndex
  | .proceed t => s.act t fun r th => proceed r t th
  | .wakeOwner t w =>
    let s := (s.act t fun r th => proceed r t th).act w fun r th => proceed r w th
    { s with
      resource :=
        { s.resource with ownerEntry := { s.resource.ownerEntry with ownerThread := .thread w } } }

/-- A thread calls when it is in no routine, it releases and converts what it holds, and it does not
ask for the resource exclusively while it holds it shared. -/
def Enabled (s : State τ) : Action τ → Prop
  | .acquire t f _ =>
    (s.threads t).pc = .running ∧
      (f = .exAcquireResourceExclusiveLite →
        (s.threads t).held=0 ∨ (s.threads t).exclusive=true)
  | .tryToAcquire t =>
    (s.threads t).pc = .running ∧ ((s.threads t).held=0 ∨ (s.threads t).exclusive=true)
  | .convert t =>
    (s.threads t).pc = .running ∧ 0<(s.threads t).held ∧ (s.threads t).exclusive=true
  | .release t _ => (s.threads t).pc = .running ∧ 0<(s.threads t).held
  | .proceed t => (s.threads t).canProceed s.resource=true
  | .wakeOwner t w => (s.threads t).pc = .settingEvent ∧ (s.threads w).pc = .waitingExclusive

instance (s : State τ) : DecidablePred s.Enabled
  | .acquire _ _ _ => inferInstanceAs (Decidable (_ ∧ (_ → _)))
  | .tryToAcquire _ | .convert _ | .release _ _ | .wakeOwner _ _ => inferInstanceAs
    (Decidable (_ ∧ _))
  | .proceed _ => inferInstanceAs (Decidable (_=_))

def run (s : State τ) (actions : List (Action τ)) : State τ := actions.foldl step s

end State

end Odyssey.Ex
