import Odyssey.Ex.ResourceEntries
import Odyssey.Lib.Tally

/-! The invariant of a resource: its counts agree with the threads that own it, have been handed it
or wait for it, and each of these threads has the owner entry it should have. It is kept by every
change a step of a thread can make. -/
namespace Odyssey.Ex

open Tally Function Nat Thread

variable {τ : Type*} {pc' pc : Pc} {th : Thread} {T : Totals} {r r' : Resource τ} {c : Nat}
  {x : Bool}

namespace Pc

def isWoken : Pc → Bool
  | .wokenExclusive | .woken | .wokenExpanding _ => true
  | _ => false

def sharedUnits : Pc → Nat
  | .releasingSemaphore count => count
  | _ => 0

def exclusiveUnits : Pc → Nat
  | .settingEvent => 1
  | _ => 0

def waitsShared : Pc → Nat
  | .waitingShared _ => 1
  | _ => 0

def waitsExclusive : Pc → Nat
  | .waitingExclusive => 1
  | _ => 0

def isPlain : Pc → Bool
  | .running | .acquiring _ _ | .allocatingEvent _ | .allocatingSemaphore _ _ | .expanding _ _ _ =>
    true
  | _ => false

def asksExclusive : Pc → Bool
  | .acquiring .exAcquireResourceExclusiveLite _ | .allocatingEvent _ => true
  | .expanding .exAcquireResourceExclusiveLite _ _ => true
  | .allocatingSemaphore .exAcquireResourceExclusiveLite _ => true
  | _ => false

structure Quiet (pc : Pc) : Prop where
  isWoken : pc.isWoken=false
  waitsShared : pc.waitsShared=0
  waitsExclusive : pc.waitsExclusive=0
  asksExclusive : pc.asksExclusive=false
  notRegistered : pc ≠ .waitingShared true
  notWokenExclusive : pc ≠ .wokenExclusive

theorem Quiet.running : Quiet .running := ⟨rfl,rfl,rfl,rfl,by simp,by simp⟩

theorem Quiet.releasingSemaphore (count : Nat) : Quiet (.releasingSemaphore count) :=
  ⟨rfl,rfl,rfl,rfl,by simp,by simp⟩

theorem Quiet.settingEvent : Quiet .settingEvent := ⟨rfl,rfl,rfl,rfl,by simp,by simp⟩

structure Like (pc pc' : Pc) : Prop where
  isWoken : pc'.isWoken=pc.isWoken
  sharedUnits : pc'.sharedUnits=pc.sharedUnits
  exclusiveUnits : pc'.exclusiveUnits=pc.exclusiveUnits
  waitsShared : pc'.waitsShared=pc.waitsShared
  waitsExclusive : pc'.waitsExclusive=pc.waitsExclusive
  registered : pc' = .waitingShared true ↔ pc = .waitingShared true
  wokenExclusive : pc' = .wokenExclusive ↔ pc = .wokenExclusive

theorem isPlain_of_eq {pc pc' : Pc} (h : pc=pc') (hplain : pc'.isPlain=true) :
    pc.isPlain=true := h ▸ hplain

theorem plain_weights (h : pc.isPlain=true) :
    pc.isWoken=false ∧ pc.sharedUnits=0 ∧ pc.exclusiveUnits=0 ∧ pc.waitsShared=0 ∧
      pc.waitsExclusive=0 ∧ pc ≠ .waitingShared true ∧ pc ≠ .wokenExclusive := by
  cases pc <;> simp [isPlain] at h <;>
    simp [isWoken,sharedUnits,exclusiveUnits,waitsShared,waitsExclusive]

theorem Like.of_plain {pc pc' : Pc} (h : pc.isPlain=true) (h' : pc'.isPlain=true) :
    pc.Like pc' := by
  cases pc <;> cases pc' <;> simp [isPlain] at h h' <;>
    exact ⟨rfl,rfl,rfl,rfl,rfl,by simp,by simp⟩

end Pc

namespace Thread

def Owns (th : Thread) : Prop := 0<th.held ∨ th.pc.isWoken=true

instance : DecidablePred Owns := fun _ => inferInstanceAs (Decidable (_ ∨ _))

def owner (th : Thread) : Nat := if th.Owns then 1 else 0

@[simp] theorem goto_pc (th : Thread) (pc : Pc) : (th.goto pc).pc=pc := rfl

@[simp] theorem released_pc (th : Thread) (pc : Pc) : (th.released pc).pc=pc := rfl

theorem owner_of_held (h : 0<th.held) : th.owner=1 :=
  if_pos (.inl h)

theorem owner_mk (h : 0<c) : (Thread.mk pc c x).owner=1 :=
  owner_of_held h

theorem owner_of_woken (h : th.pc.isWoken=true) : th.owner=1 :=
  if_pos (.inr h)

theorem owner_of_not (h : th.held=0) (hpc : th.pc.isWoken=false) : th.owner=0 :=
  if_neg fun ho => by
    obtain ho | ho := ho
    · omega
    · simp [hpc] at ho

theorem owner_goto (h : pc.isWoken=th.pc.isWoken) : (th.goto pc).owner=th.owner := by
  have howns : (th.goto pc).Owns ↔ th.Owns := by
    simp only [Owns,goto,h]
  simp only [owner,howns]

theorem granted_eq (h : th.held=0) (x : Bool) : th.granted x=⟨.running,1,x⟩ := by
  simp [granted,h]

theorem held_of_owner (h : th.owner=0) : th.held=0 ∧ th.pc.isWoken=false := by
  have hn : ¬ th.Owns := fun ho => absurd h (by simp [owner,ho])
  simp only [Owns,not_or] at hn
  exact ⟨by omega,by simpa using hn.2⟩

end Thread

namespace Resource

def semaphore (r : Resource τ) : Nat := r.sharedWaiters.getD 0

def event (r : Resource τ) : Nat := (r.exclusiveWaiters.getD false).toNat

end Resource

@[ext]
structure Totals where
  owners : Nat
  sharedUnits : Nat
  exclusiveUnits : Nat
  waitsShared : Nat
  waitsExclusive : Nat

namespace Thread

def weights (th : Thread) : Totals :=
  ⟨th.owner,th.pc.sharedUnits,th.pc.exclusiveUnits,th.pc.waitsShared,th.pc.waitsExclusive⟩

theorem weights_of_pc {u x ws wx : Nat} (h : th.pc=pc)
    (hw : (pc.sharedUnits, pc.exclusiveUnits, pc.waitsShared, pc.waitsExclusive)=(u, x, ws, wx)) :
    th.weights=⟨th.owner,u,x,ws,wx⟩ := by
  simp only [Prod.mk.injEq] at hw
  rw [weights,h,hw.1,hw.2.1,hw.2.2.1,hw.2.2.2]

theorem weights_of_plain (h : th.pc.isPlain=true) : th.weights=⟨th.owner,0,0,0,0⟩ := by
  obtain ⟨-,h1,h2,h3,h4,-,-⟩ := Pc.plain_weights h
  rw [weights,h1,h2,h3,h4]

end Thread

section Totals

variable [Fintype τ]

def totals (g : τ → Thread) : Totals where
  owners := tally Thread.owner g
  sharedUnits := tally (fun th => th.pc.sharedUnits) g
  exclusiveUnits := tally (fun th => th.pc.exclusiveUnits) g
  waitsShared := tally (fun th => th.pc.waitsShared) g
  waitsExclusive := tally (fun th => th.pc.waitsExclusive) g

/-- What a change of one thread does to the sums. -/
theorem totals_update [DecidableEq τ] (g : τ → Thread) (t : τ) (th : Thread)
    {o u x ws wx o' u' x' ws' wx' : Nat} (hold : (g t).weights=⟨o,u,x,ws,wx⟩)
    (hnew : th.weights=⟨o',u',x',ws',wx'⟩) :
    (totals (update g t th)).owners+o=(totals g).owners+o' ∧
    (totals (update g t th)).sharedUnits+u=(totals g).sharedUnits+u' ∧
    (totals (update g t th)).exclusiveUnits+x=(totals g).exclusiveUnits+x' ∧
    (totals (update g t th)).waitsShared+ws=(totals g).waitsShared+ws' ∧
    (totals (update g t th)).waitsExclusive+wx=(totals g).waitsExclusive+wx' := by
  obtain ⟨rfl,rfl,rfl,rfl,rfl⟩ := Totals.mk.inj hold
  obtain ⟨rfl,rfl,rfl,rfl,rfl⟩ := Totals.mk.inj hnew
  exact ⟨tally_update Thread.owner g t th,tally_update (fun th => th.pc.sharedUnits) g t th,
    tally_update (fun th => th.pc.exclusiveUnits) g t th,
    tally_update (fun th => th.pc.waitsShared) g t th,
    tally_update (fun th => th.pc.waitsExclusive) g t th⟩

end Totals

structure Counts (r : Resource τ) (T : Totals) : Prop where
  active : r.activeEntries =
    T.owners+(r.semaphore+T.sharedUnits)+(r.event+T.exclusiveUnits)
  shared : T.waitsShared=r.numberOfSharedWaiters+(r.semaphore+T.sharedUnits)
  exclusive : T.waitsExclusive=r.numberOfExclusiveWaiters+(r.event+T.exclusiveUnits)
  /-- An exclusive owner is alone. -/
  alone : r.ownedExclusive=true → r.activeEntries=1 ∧ r.semaphore+T.sharedUnits=0
  /-- A shared resource is handed to no exclusive waiter, its shared waiters wait behind an
  exclusive one, and when nobody owns it nobody waits. -/
  free : r.ownedExclusive=false → r.event+T.exclusiveUnits=0 ∧
    (0<r.numberOfSharedWaiters → 0<r.numberOfExclusiveWaiters) ∧
    (r.activeEntries=0 → r.numberOfExclusiveWaiters=0)
  activeCount : (r.activeEntries=0 → r.activeCount=0) ∧ (0<r.activeEntries → r.activeCount=1)
  allocated : 0<T.waitsShared → r.sharedWaiters.isSome=true

open Resource

structure SameCounts (r r' : Resource τ) : Prop where
  activeCount : r'.activeCount=r.activeCount
  ownedExclusive : r'.ownedExclusive=r.ownedExclusive
  semaphore : r'.semaphore=r.semaphore
  allocated : r.sharedWaiters.isSome=true → r'.sharedWaiters.isSome=true
  event : r'.event=r.event
  activeEntries : r'.activeEntries=r.activeEntries
  numberOfSharedWaiters : r'.numberOfSharedWaiters=r.numberOfSharedWaiters
  numberOfExclusiveWaiters : r'.numberOfExclusiveWaiters=r.numberOfExclusiveWaiters

theorem Counts.congr (h : Counts r T) (ha : SameCounts r r') :
    Counts r' T where
  active := by rw [ha.activeEntries,ha.semaphore,ha.event]; exact h.active
  shared := by rw [ha.numberOfSharedWaiters,ha.semaphore]; exact h.shared
  exclusive := by rw [ha.numberOfExclusiveWaiters,ha.event]; exact h.exclusive
  alone := by rw [ha.ownedExclusive,ha.activeEntries,ha.semaphore]; exact h.alone
  free := by
    rw [ha.ownedExclusive,ha.event,ha.numberOfSharedWaiters,ha.numberOfExclusiveWaiters,
      ha.activeEntries]
    exact h.free
  activeCount := by rw [ha.activeEntries,ha.activeCount]; exact h.activeCount
  allocated hw := ha.allocated (h.allocated hw)

/-- The counts of a shared or free resource. -/
theorem Counts.of_shared (hflag : r.ownedExclusive=false)
    (halloc : 0<T.waitsShared → r.sharedWaiters.isSome=true)
    (hnum : r.activeEntries=T.owners+(r.semaphore+T.sharedUnits) ∧
      T.waitsShared=r.numberOfSharedWaiters+(r.semaphore+T.sharedUnits) ∧
      T.waitsExclusive=r.numberOfExclusiveWaiters ∧ r.event+T.exclusiveUnits=0 ∧
      (0<r.numberOfSharedWaiters → 0<r.numberOfExclusiveWaiters) ∧
      (r.activeEntries=0 → r.numberOfExclusiveWaiters=0 ∧ r.activeCount=0) ∧
      (0<r.activeEntries → r.activeCount=1)) : Counts r T := by
  refine ⟨by omega,by omega,by omega,fun hx => ?_,fun _ => by omega,by omega,halloc⟩
  rw [hflag] at hx
  exact absurd hx (by simp)

/-- The counts of a resource that is owned exclusively. -/
theorem Counts.of_exclusive (hflag : r.ownedExclusive=true)
    (halloc : 0<T.waitsShared → r.sharedWaiters.isSome=true)
    (hnum : r.activeEntries=1 ∧ r.activeCount=1 ∧ T.owners+(r.event+T.exclusiveUnits)=1 ∧
      r.semaphore+T.sharedUnits=0 ∧ T.waitsShared=r.numberOfSharedWaiters ∧
      T.waitsExclusive=r.numberOfExclusiveWaiters+(r.event+T.exclusiveUnits)) :
    Counts r T := by
  refine ⟨by omega,by omega,by omega,fun _ => by omega,fun hx => ?_,by omega,halloc⟩
  rw [hflag] at hx
  exact absurd hx (by simp)

theorem SameCounts.refl (r : Resource τ) : SameCounts r r :=
  ⟨rfl,rfl,rfl,id,rfl,rfl,rfl,rfl⟩

theorem SameCounts.setEntry (r : Resource τ) (slot : Slot) (e : OwnerEntry τ) :
    SameCounts r (r.setEntry slot e) := by
  cases slot <;> exact ⟨rfl,rfl,rfl,id,rfl,rfl,rfl,rfl⟩

structure Alike (r r' : Resource τ) : Prop extends SameCounts r r' where
  same : ∀ t, SameFor r r' t
  ownerEntry : r'.ownerEntry=r.ownerEntry

theorem Alike.refl (r : Resource τ) : Alike r r :=
  ⟨.refl r,fun _ _ _ => Iff.rfl,rfl⟩

theorem Alike.expand (r : Resource τ) (oldSize : Nat) :
    Alike r (r.expExpandResourceOwnerTable oldSize) := by
  have hsame := SameFor.expand r oldSize
  unfold expExpandResourceOwnerTable at hsame ⊢
  by_cases hsize : r.tableSize≠oldSize
  · rw [if_pos hsize]
    exact Alike.refl r
  · simp only [if_neg hsize] at hsame ⊢
    cases htable : r.ownerTable with
    | none | some =>
      simp only [htable] at hsame
      exact ⟨⟨rfl,rfl,rfl,id,rfl,rfl,rfl,rfl⟩,hsame,rfl⟩

theorem Alike.allocateSemaphore (r : Resource τ) :
    Alike r { r with sharedWaiters := some (r.sharedWaiters.getD 0) } :=
  ⟨⟨rfl,rfl,rfl,fun _ => rfl,rfl,rfl,rfl,rfl⟩,SameFor.of_eq rfl rfl,rfl⟩

theorem Alike.allocateEvent (r : Resource τ) :
    Alike r { r with exclusiveWaiters := some (r.exclusiveWaiters.getD false) } :=
  ⟨⟨rfl,rfl,rfl,id,rfl,rfl,rfl,rfl⟩,SameFor.of_eq rfl rfl,rfl⟩

structure EntryOf (r : Resource τ) (t : τ) (th : Thread) : Prop where
  held : 0<th.held → th.held<ownerCountLimit ∧ th.exclusive=r.ownedExclusive ∧
    ∃ slot, r.Sole slot t th.held ∧ (r.ownedExclusive=true → slot = .first)
  place : 0<th.held → th.pc.isWoken=false ∧ th.pc ≠ .waitingShared true ∧
    th.pc.waitsExclusive=0
  waiting : th.pc = .waitingShared true → ∃ slot, slot ≠ .first ∧ r.Sole slot t 1
  woken : th.pc = .wokenExclusive → r.ownedExclusive=true ∧
    (r.ownerEntry=⟨.handed,1⟩ ∨ r.ownerEntry=⟨.thread t,1⟩) ∧
    ∀ slot c, r.At slot t c → slot = .first
  wokenShared : th.pc.isWoken=true → th.pc ≠ .wokenExclusive → r.ownedExclusive=false
  none : th.held=0 → th.pc ≠ .waitingShared true → th.pc ≠ .wokenExclusive →
    ∀ slot c, ¬ r.At slot t c
  asks : th.pc.asksExclusive=true → th.held=0 ∨ th.exclusive=true

/-- A thread that does nothing keeps its entries when the others leave them alone. -/
theorem EntryOf.frame {t : τ} (h : EntryOf r t th)
    (same : SameFor r r' t) (flag : th.owner=1 → r'.ownedExclusive=r.ownedExclusive)
    (first : th.pc = .wokenExclusive → r'.ownerEntry=r.ownerEntry) : EntryOf r' t th where
  held hh := by
    obtain ⟨hlt,hx,slot,hs,hf⟩ := h.held hh
    rw [flag (Thread.owner_of_held hh)]
    exact ⟨hlt,hx,slot,hs.congr same,hf⟩
  place := h.place
  waiting hw := by
    obtain ⟨slot,hf,hs⟩ := h.waiting hw
    exact ⟨slot,hf,hs.congr same⟩
  woken hw := by
    obtain ⟨hx,hm,hu⟩ := h.woken hw
    rw [flag (owner_of_woken (by rw [hw]; rfl)),first hw]
    exact ⟨hx,hm,fun slot c hc => hu slot c ((same slot c).mp hc)⟩
  wokenShared hw hx := by
    rw [flag (owner_of_woken hw)]
    exact h.wokenShared hw hx
  none h0 hw hx slot c hc := h.none h0 hw hx slot c ((same slot c).mp hc)
  asks := h.asks

section EntryOf

variable {t : τ} {slot : Slot}

/-- A thread that is registered, woken or waits for exclusive ownership does not own the
resource. -/
theorem EntryOf.held_eq_zero (h : EntryOf r t th)
    (hpc : th.pc.isWoken=true ∨ th.pc = .waitingShared true ∨ th.pc = .waitingExclusive) :
    th.held=0 := by
  by_contra hne
  obtain ⟨h1,h2,h3⟩ := h.place (by omega)
  obtain hpc | hpc | hpc := hpc
  · simp [h1] at hpc
  · exact h2 hpc
  · simp [hpc,Pc.waitsExclusive] at h3

/-- A running owner with its entry. -/
theorem EntryOf.owning (hc : 0<c) (hlt : c<ownerCountLimit) (hsole : r.Sole slot t c)
    (hfirst : r.ownedExclusive=true → slot = .first) (hx : x=r.ownedExclusive) :
    EntryOf r t ⟨.running,c,x⟩ :=
  ⟨fun _ => ⟨hlt,hx,slot,hsole,hfirst⟩,fun _ => ⟨rfl,by simp,rfl⟩,by simp,by simp,
    by simp [Pc.isWoken],fun h0 => absurd h0 (ne_of_gt hc),by simp [Pc.asksExclusive]⟩

/-- A thread that does not own the resource and has no entry. -/
theorem EntryOf.outside (hheld : th.held=0) (hreg : th.pc ≠ .waitingShared true)
    (hex : th.pc ≠ .wokenExclusive) (hwoken : th.pc.isWoken=true → r.ownedExclusive=false)
    (hnone : ∀ slot c, ¬ r.At slot t c) : EntryOf r t th :=
  ⟨fun hpos => absurd hheld (ne_of_gt hpos),fun hpos => absurd hheld (ne_of_gt hpos),
    fun hw => absurd hw hreg,fun hw => absurd hw hex,fun hw _ => hwoken hw,fun _ _ _ => hnone,
    fun _ => .inl hheld⟩

/-- A thread leaves its place, and keeps what it owns. -/
theorem EntryOf.settle (h : EntryOf r t th) (hreg : th.pc ≠ .waitingShared true)
    (hex : th.pc ≠ .wokenExclusive) (hwoken : pc'.isWoken=false)
    (hreg' : pc' ≠ .waitingShared true) (hwaits : pc'.waitsExclusive=0)
    (hasks : pc'.asksExclusive=false) : EntryOf r t (th.goto pc') := by
  refine ⟨h.held,fun _ => ⟨hwoken,hreg',hwaits⟩,fun hw => absurd hw hreg',fun hw => ?_,
    fun hw => ?_,fun h0 _ _ => h.none h0 hreg hex,fun ha => ?_⟩
  · rw [goto_pc] at hw
    simp [hw,Pc.isWoken] at hwoken
  · simp [hwoken] at hw
  · simp [hasks] at ha

end EntryOf

namespace State

variable [Fintype τ] {th' : Thread}

structure Inv (s : State τ) : Prop where
  counts : Counts s.resource (totals s.threads)
  /-- Until the new exclusive owner is woken its entry has the mark. -/
  mark : 0<s.resource.event+(totals s.threads).exclusiveUnits →
    s.resource.ownerEntry=⟨.handed,1⟩
  entries : ∀ t, EntryOf s.resource t (s.threads t)

variable {s : State τ} {t u : τ}

theorem Inv.init : (init : State τ).Inv := by
  have hT : totals (State.init : State τ).threads=⟨0,0,0,0,0⟩ := by
    simp [totals,tally,State.init,Thread.owner,Thread.Owns,Pc.isWoken,Pc.sharedUnits,
      Pc.exclusiveUnits,Pc.waitsShared,Pc.waitsExclusive]
  have hentry : ∀ slot (t : τ) c, ¬ (Resource.init : Resource τ).At slot t c := by
    intro slot t c
    cases slot <;> simp [At,entry,Resource.init,OwnerEntry.free]
  refine ⟨?_,?_,fun t => ?_⟩
  · rw [hT]
    exact .of_shared rfl (by simp) (by simp [State.init,Resource.init,semaphore,event])
  · rw [hT]
    simp [State.init,Resource.init,event]
  · exact .outside rfl (by simp [State.init]) (by simp [State.init])
      (by simp [State.init,Pc.isWoken]) fun slot c => hentry slot t c

theorem owner_le (s : State τ) (t : τ) : (s.threads t).owner≤(totals s.threads).owners :=
  le_tally Thread.owner s.threads t

/-- A thread that owns the resource leaves no unit for an exclusive waiter. -/
theorem Inv.no_unit (h : s.Inv) (ho : (s.threads t).owner=1) :
    s.resource.event+(totals s.threads).exclusiveUnits=0 := by
  have hle := s.owner_le t
  have hactive := h.counts.active
  cases hx : s.resource.ownedExclusive with
  | false => exact (h.counts.free hx).1
  | true =>
    have halone := h.counts.alone hx
    omega

theorem Inv.no_owner (h : s.Inv) (h0 : s.resource.activeEntries=0) (u : τ) :
    (s.threads u).owner=0 := by
  have hle := s.owner_le u
  have hactive := h.counts.active
  omega

theorem Inv.no_entry (h : s.Inv) (hpc : (s.threads t).pc.isPlain=true)
    (hheld : (s.threads t).held=0) (slot : Slot) (c : Nat) : ¬ s.resource.At slot t c := by
  obtain ⟨-,-,-,-,-,hw1,hw2⟩ := Pc.plain_weights hpc
  exact (h.entries t).none hheld hw1 hw2 slot c

theorem Inv.shared_of_unit (h : s.Inv) (hsem : 0<s.resource.semaphore) :
    s.resource.ownedExclusive=false := by
  by_contra hx
  have halone := h.counts.alone (by simpa using hx)
  omega

/-- Only an owner is in the first entry. -/
theorem Inv.owner_of_first (h : s.Inv) (hat : s.resource.At .first t c) :
    (s.threads t).owner=1 := by
  have hent := h.entries t
  by_contra hne
  have hzero : (s.threads t).owner=0 := by
    have hle : (s.threads t).owner≤1 := by
      unfold Thread.owner
      split <;> omega
    omega
  obtain ⟨hheld,hwoken⟩ := held_of_owner hzero
  by_cases hreg : (s.threads t).pc = .waitingShared true
  · obtain ⟨slot,hslot,hsole⟩ := hent.waiting hreg
    exact hslot (hsole.2 _ _ hat).symm
  · exact hent.none hheld hreg (fun hw => by simp [hw,Pc.isWoken] at hwoken) _ _ hat

/-- A thread in the routines that is not in the first entry of an exclusively owned resource does
not own it. -/
theorem Inv.held_eq_zero (h : s.Inv) (hx : s.resource.ownedExclusive=true)
    (hne : s.resource.ownerEntry.ownerThread ≠ .thread t) : (s.threads t).held=0 := by
  by_contra hheld
  obtain ⟨-,-,slot,hsole,hfirst⟩ := (h.entries t).held (by omega)
  have hat := hsole.1
  rw [hfirst hx] at hat
  simp only [At,entry,Option.some.injEq] at hat
  exact hne (by rw [hat])

theorem Inv.held_of_no_entry (h : s.Inv) (hnone : ∀ slot c, ¬ s.resource.At slot t c) :
    (s.threads t).held=0 := by
  by_contra hne
  obtain ⟨-,-,slot,hsole,-⟩ := (h.entries t).held (by omega)
  exact hnone slot _ hsole.1

variable [DecidableEq τ]

/-- When the last active entry belongs to a thread, no other thread owns the resource. -/
theorem Inv.owner_of_one (h : s.Inv) (hone : s.resource.activeEntries=1)
    (ht : (s.threads t).owner=1) (hu : (s.threads u).owner=1) : u=t := by
  by_contra hne
  have hle : (s.threads u).owner+(s.threads t).owner≤(totals s.threads).owners :=
    add_le_tally Thread.owner s.threads hne
  have hactive := h.counts.active
  omega

theorem Inv.owner_unique (h : s.Inv) (hx : s.resource.ownedExclusive=true)
    (ht : (s.threads t).owner=1) (hu : (s.threads u).owner=1) : u=t :=
  h.owner_of_one (h.counts.alone hx).1 ht hu

/-- While a thread owns the resource no other thread is a woken exclusive waiter. -/
theorem Inv.not_wokenExclusive (h : s.Inv) (ht : (s.threads t).owner=1) (hne : u≠t)
    (hu : (s.threads u).pc = .wokenExclusive) : False := by
  have howner : (s.threads u).owner=1 := owner_of_woken (by rw [hu]; rfl)
  exact hne (h.owner_unique ((h.entries u).woken hu).1 ht howner)

/-- The invariant after a step of one thread: what is left to show of the others. -/
theorem Inv.of_step (h : s.Inv) (counts : Counts r' (totals (update s.threads t th')))
    (mark : 0<r'.event+(totals (update s.threads t th')).exclusiveUnits →
      r'.ownerEntry=⟨.handed,1⟩)
    (own : EntryOf r' t th')
    (same : ∀ u, u≠t → SameFor s.resource r' u)
    (flag : ∀ u, u≠t → (s.threads u).owner=1 →
      r'.ownedExclusive=s.resource.ownedExclusive)
    (first : ∀ u, u≠t → (s.threads u).pc = .wokenExclusive →
      r'.ownerEntry=s.resource.ownerEntry) :
    Inv ⟨r',update s.threads t th'⟩ where
  counts := counts
  mark := mark
  entries u := by
    by_cases hu : u=t
    · subst hu
      simpa using own
    · have hold := h.entries u
      simpa [update_of_ne hu] using hold.frame (same u hu) (flag u hu) (first u hu)

/-- The invariant after a step of one thread that leaves all entries alone. -/
theorem Inv.of_same (h : s.Inv) (htable : r'.ownerTable=s.resource.ownerTable)
    (hfirst : r'.ownerEntry=s.resource.ownerEntry)
    (hflag : r'.ownedExclusive=s.resource.ownedExclusive)
    (counts : Counts r' (totals (update s.threads t th')))
    (mark : 0<r'.event+(totals (update s.threads t th')).exclusiveUnits →
      s.resource.ownerEntry=⟨.handed,1⟩)
    (own : EntryOf s.resource t th') : Inv ⟨r',update s.threads t th'⟩ :=
  h.of_step counts (fun hpos => hfirst.trans (mark hpos))
    (own.frame (.of_eq htable hfirst t) (fun _ => hflag) fun _ => hfirst)
    (fun u _ => .of_eq htable hfirst u) (fun _ _ _ => hflag) fun _ _ _ => hfirst

/-- The thread goes on at a place of the same weight, with the resource as it was. -/
theorem Inv.goto (h : s.Inv) (like : (s.threads t).pc.Like pc') (ha : Alike s.resource r')
    (asks : pc'.asksExclusive=true → (s.threads t).held=0 ∨ (s.threads t).exclusive=true) :
    Inv ⟨r',update s.threads t ((s.threads t).goto pc')⟩ := by
  have hT : totals (update s.threads t ((s.threads t).goto pc'))=totals s.threads := by
    have hweights : ((s.threads t).goto pc').weights=(s.threads t).weights := by
      simp only [Thread.weights,owner_goto like.isWoken,goto_pc,like.sharedUnits,
        like.exclusiveUnits,like.waitsShared,like.waitsExclusive]
    obtain ⟨ho,hs,hx,hws,hwx⟩ := totals_update s.threads t _ rfl hweights
    ext <;> omega
  have hent := h.entries t
  refine h.of_step ?_ ?_ ?_ (fun u _ => ha.same u) (fun u _ _ => ha.ownedExclusive)
    (fun u _ _ => ha.ownerEntry)
  · rw [hT]
    exact h.counts.congr ha.toSameCounts
  · rw [hT,ha.event,ha.ownerEntry]
    exact h.mark
  · have hent' := hent.frame (ha.same t) (fun _ => ha.ownedExclusive) (fun _ => ha.ownerEntry)
    refine ⟨hent'.held,?_,?_,?_,?_,?_,asks⟩
    · intro hheld
      obtain ⟨h1,h2,h3⟩ := hent'.place hheld
      exact ⟨like.isWoken.trans h1,fun hr => h2 (like.registered.mp hr),
        like.waitsExclusive.trans h3⟩
    · exact fun hr => hent'.waiting (like.registered.mp hr)
    · exact fun hr => hent'.woken (like.wokenExclusive.mp hr)
    · exact fun hw hx => hent'.wokenShared (like.isWoken ▸ hw) fun hx' =>
        hx (like.wokenExclusive.mpr hx')
    · exact fun h0 hr hx => hent'.none h0 (fun hr' => hr (like.registered.mpr hr'))
        fun hx' => hx (like.wokenExclusive.mpr hx')

/-! Steps of a thread that is not waiting and has nothing to signal. -/

variable {slot : Slot}

section

variable (h : s.Inv)
include h

/-- An owner changes its count. -/
theorem Inv.recount (hpc : (s.threads t).pc.isPlain=true)
    (hheld : 0<(s.threads t).held) (hat : s.resource.At slot t (s.threads t).held)
    (hc : 0<c) (hlt : c<ownerCountLimit) :
    Inv ⟨s.resource.setEntry slot ⟨.thread t,c⟩,
      update s.threads t ⟨.running,c,(s.threads t).exclusive⟩⟩ := by
  obtain ⟨-,hx,slot',hsole,hfirst⟩ := (h.entries t).held hheld
  obtain rfl := hsole.2 slot _ hat
  have howner : (s.threads t).owner=1 := Thread.owner_of_held hheld
  have howner' : (Thread.mk .running c (s.threads t).exclusive).owner=1 := owner_mk hc
  obtain ⟨ho,hs,hxu,hws,hwx⟩ := totals_update s.threads t ⟨.running,c,(s.threads t).exclusive⟩
    (weights_of_plain hpc) (weights_of_plain rfl)
  have hT : totals (update s.threads t ⟨.running,c,(s.threads t).exclusive⟩) =
      totals s.threads := by
    ext <;> omega
  refine h.of_step ?_ ?_ ?_ ?_ ?_ ?_
  · rw [hT]
    exact h.counts.congr (.setEntry _ _ _)
  · rw [hT]
    intro hpos
    have hno := h.no_unit howner
    simp only [event,setEntry_exclusiveWaiters] at hpos hno
    omega
  · exact .owning hc hlt (hsole.recount c) (by simpa using hfirst) (by simpa using hx)
  · intro u hu
    exact SameFor.setEntry hsole.1 (by simpa using Ne.symm hu) (by simpa using Ne.symm hu)
  · intro u _ _
    simp
  · intro u hu hw
    exact (h.not_wokenExclusive howner hu hw).elim

section
variable (hpc : (s.threads t).pc.isPlain=true)
include hpc

/-- A thread takes a resource nobody owns. -/
theorem Inv.takeFirst (h0 : s.resource.activeEntries=0) (x : Bool) :
    Inv ⟨{ s.resource.takeFirst t with ownedExclusive := x },
      update s.threads t ((s.threads t).granted x)⟩ := by
  have hno := h.no_owner h0
  have hno' := hno t
  obtain ⟨hheld,-⟩ := held_of_owner (hno t)
  rw [granted_eq hheld]
  have howner : (Thread.mk .running 1 x).owner=1 := owner_mk one_pos
  obtain ⟨ho,hs,hxu,hws,hwx⟩ := totals_update s.threads t ⟨.running,1,x⟩
    (weights_of_plain hpc) (weights_of_plain rfl)
  obtain ⟨hactive,hshared,hexcl,halone,hfree,hcount,halloc⟩ := h.counts
  have hflag : s.resource.ownedExclusive=false := by
    by_contra hx
    have h1 := halone (by simpa using hx)
    omega
  obtain ⟨hunit,hbehind,hnoWaiter⟩ := hfree hflag
  have hfirst : ∀ u c, ¬ s.resource.At .first u c := by
    intro u c hu
    have hown := h.owner_of_first hu
    rw [hno] at hown
    exact absurd hown (by simp)
  have hset : s.resource.entry .first=some s.resource.ownerEntry := rfl
  have htake := Sole.take hset (h.no_entry hpc hheld) 1
  refine h.of_step ?_ ?_ ?_ ?_ ?_ ?_
  · cases x with
    | false =>
      exact .of_shared rfl (fun hw => halloc (by omega))
        (by simp only [semaphore,event,Resource.takeFirst,implies_true,and_true] at *; omega)
    | true =>
      exact .of_exclusive rfl (fun hw => halloc (by omega))
        (by simp only [semaphore,event,Resource.takeFirst,true_and] at *; omega)
  · intro hpos
    change 0<s.resource.event+_ at hpos
    omega
  · have hsole : Sole { s.resource.takeFirst t with ownedExclusive := x } .first t 1 :=
      htake.congr (SameFor.of_eq rfl rfl t)
    exact .owning one_pos (by simp [ownerCountLimit]) hsole (fun _ => rfl) rfl
  · intro u hu
    have hother : s.resource.ownerEntry.ownerThread ≠ .thread u := by
      intro he
      exact hfirst u s.resource.ownerEntry.ownerCount (by simp [At,entry,← he])
    have hsame : SameFor s.resource (s.resource.setEntry .first ⟨.thread t,1⟩) u :=
      SameFor.setEntry hset hother (by simpa using Ne.symm hu)
    exact hsame
  · intro u _ hown
    rw [hno] at hown
    exact absurd hown (by simp)
  · intro u _ hw
    have hown := hno u
    rw [owner_of_woken (by rw [hw]; rfl)] at hown
    exact absurd hown (by simp)

/-- A thread takes a free entry of the table and waits. -/
theorem Inv.waitWithEntry (hheld : (s.threads t).held=0) (hslot : slot ≠ .first)
    (hfree : s.resource.FreeAt slot) (hsome : s.resource.sharedWaiters.isSome=true)
    (hbehind : s.resource.ownedExclusive=true ∨ 0<s.resource.numberOfExclusiveWaiters) :
    Inv ⟨{ s.resource.setEntry slot ⟨.thread t,1⟩ with
        numberOfSharedWaiters := s.resource.numberOfSharedWaiters+1 },
      update s.threads t ((s.threads t).goto (.waitingShared true))⟩ := by
  obtain ⟨c,hentry⟩ := hfree
  obtain ⟨hplain,-⟩ := Pc.plain_weights hpc
  have howner : (s.threads t).owner=0 := owner_of_not hheld hplain
  have howner' : ((s.threads t).goto (.waitingShared true)).owner=0 :=
    owner_of_not hheld rfl
  obtain ⟨ho,hs,hxu,hws,hwx⟩ := totals_update s.threads t
    ((s.threads t).goto (.waitingShared true)) (weights_of_plain hpc)
    (rfl : _=Totals.mk _ 0 0 1 0)
  have hsame := SameCounts.setEntry s.resource slot ⟨.thread t,1⟩
  obtain ⟨hactive,hshared,hexcl,halone,hfree,hcount,halloc⟩ := h.counts.congr hsame
  have hflag := hsame.ownedExclusive
  have hnumber := hsame.numberOfSharedWaiters
  have hnumber' := hsame.numberOfExclusiveWaiters
  refine h.of_step ?_ ?_ ?_ ?_ ?_ ?_
  · cases hx : s.resource.ownedExclusive with
    | false =>
      have hfree' := hfree (hflag.trans hx)
      have hexclusive := hbehind.resolve_left (by simp [hx])
      exact .of_shared (hflag.trans hx) (fun _ => hsame.allocated hsome)
        (by simp only [semaphore,event] at *; omega)
    | true =>
      have halone' := halone (hflag.trans hx)
      exact .of_exclusive (hflag.trans hx) (fun _ => hsame.allocated hsome)
        (by simp only [semaphore,event] at *; omega)
  · intro hpos
    have hev := hsame.event
    change 0<(s.resource.setEntry slot ⟨.thread t,1⟩).event+_ at hpos
    exact (setEntry_ownerEntry hslot _).trans (h.mark (by omega))
  · refine ⟨fun hpos => absurd hheld (ne_of_gt hpos),fun hpos => absurd hheld (ne_of_gt hpos),
      fun _ => ⟨slot,hslot,?_⟩,by simp,by simp [Pc.isWoken],by simp,by simp [Pc.asksExclusive]⟩
    exact (Sole.take hentry (h.no_entry hpc hheld) 1).congr (SameFor.of_eq rfl rfl t)
  · intro u hu slot' c'
    exact SameFor.setEntry hentry (by simp) (by simpa using Ne.symm hu) slot' c'
  · intro u _ _
    exact hflag
  · intro u _ _
    exact setEntry_ownerEntry hslot _

/-- A thread waits without an entry behind an exclusive waiter. -/
theorem Inv.waitWithoutEntry
    (hsome : s.resource.sharedWaiters.isSome=true)
    (hflag : s.resource.ownedExclusive=false) (hbehind : 0<s.resource.numberOfExclusiveWaiters) :
    Inv ⟨{ s.resource with numberOfSharedWaiters := s.resource.numberOfSharedWaiters+1 },
      update s.threads t ((s.threads t).goto (.waitingShared false))⟩ := by
  obtain ⟨hplain,-,-,-,-,hw1,hw2⟩ := Pc.plain_weights hpc
  have howner : ((s.threads t).goto (.waitingShared false)).owner=(s.threads t).owner :=
    owner_goto hplain.symm
  obtain ⟨ho,hs,hxu,hws,hwx⟩ := totals_update s.threads t
    ((s.threads t).goto (.waitingShared false)) (weights_of_plain hpc)
    (rfl : _=Totals.mk _ 0 0 1 0)
  obtain ⟨hactive,hshared,hexcl,halone,hfree,hcount,halloc⟩ := h.counts
  have hfree' := hfree hflag
  refine h.of_same rfl rfl rfl ?_ ?_ ((h.entries t).settle hw1 hw2 rfl (by simp) rfl rfl)
  · exact .of_shared hflag (fun _ => hsome) (by simp only [semaphore,event] at *; omega)
  · intro hpos
    change 0<s.resource.event+_ at hpos
    exact h.mark (by omega)

/-- A thread joins the shared owners. -/
theorem Inv.takeShared (hheld : (s.threads t).held=0) (hfree : s.resource.FreeAt slot)
    (hflag : s.resource.ownedExclusive=false) (hactive : s.resource.activeEntries≠0) :
    Inv ⟨s.resource.takeShared t slot,update s.threads t ((s.threads t).granted false)⟩ := by
  obtain ⟨c,hentry⟩ := hfree
  obtain ⟨hplain,-⟩ := Pc.plain_weights hpc
  have howner : (s.threads t).owner=0 := owner_of_not hheld hplain
  have howner' : (Thread.mk .running 1 false).owner=1 := owner_mk one_pos
  have htake : s.resource.takeShared t slot =
      { s.resource.setEntry slot ⟨.thread t,1⟩ with
        activeEntries := s.resource.activeEntries+1 } := by
    simp [Resource.takeShared,hactive]
  rw [granted_eq hheld,htake]
  obtain ⟨ho,hs,hxu,hws,hwx⟩ := totals_update s.threads t ⟨.running,1,false⟩
    (weights_of_plain hpc) (weights_of_plain rfl)
  have hsame := SameCounts.setEntry s.resource slot ⟨.thread t,1⟩
  have hflag' := hsame.ownedExclusive.trans hflag
  obtain ⟨hnum,hshared,hexcl,-,hfree,hcount,halloc⟩ := h.counts.congr hsame
  have hfree' := hfree hflag'
  have hentries := hsame.activeEntries
  refine h.of_step ?_ ?_ ?_ ?_ (fun u _ _ => hsame.ownedExclusive) ?_
  · exact .of_shared hflag' (fun hw => halloc (by omega))
      (by simp only [semaphore,event] at *; omega)
  · intro hpos
    change 0<(s.resource.setEntry slot ⟨.thread t,1⟩).event+_ at hpos
    omega
  · have hsole : Sole { s.resource.setEntry slot ⟨.thread t,1⟩ with
        activeEntries := s.resource.activeEntries+1 } slot t 1 :=
      (Sole.take hentry (h.no_entry hpc hheld) 1).congr (SameFor.of_eq rfl rfl t)
    exact .owning one_pos (by simp [ownerCountLimit]) hsole
      (fun hx => absurd (hflag'.symm.trans hx) (by simp)) hflag'.symm
  · intro u hu slot' c'
    exact SameFor.setEntry hentry (by simp) (by simpa using Ne.symm hu) slot' c'
  · intro u _ hu
    have hx := ((h.entries u).woken hu).1
    simp [hflag] at hx

/-- A thread waits for exclusive ownership. -/
theorem Inv.waitExclusive
    (hheld : (s.threads t).held=0) (hactive : s.resource.activeEntries≠0) :
    Inv ⟨{ s.resource with numberOfExclusiveWaiters := s.resource.numberOfExclusiveWaiters+1 },
      update s.threads t ((s.threads t).goto .waitingExclusive)⟩ := by
  obtain ⟨hplain,-⟩ := Pc.plain_weights hpc
  have howner : (s.threads t).owner=0 := owner_of_not hheld hplain
  have howner' : ((s.threads t).goto .waitingExclusive).owner=0 :=
    owner_of_not hheld rfl
  obtain ⟨ho,hs,hxu,hws,hwx⟩ := totals_update s.threads t
    ((s.threads t).goto .waitingExclusive) (weights_of_plain hpc)
    (rfl : _=Totals.mk _ 0 0 0 1)
  obtain ⟨hnum,hshared,hexcl,halone,hfree,hcount,halloc⟩ := h.counts
  refine h.of_same rfl rfl rfl ?_ ?_
    (.outside hheld (by simp) (by simp) (by simp [Pc.isWoken]) (h.no_entry hpc hheld))
  · cases hx : s.resource.ownedExclusive with
    | false =>
      have hfree' := hfree hx
      exact .of_shared hx (fun hw => halloc (by omega)) (by simp only [semaphore,event] at *; omega)
    | true =>
      have halone' := halone hx
      exact .of_exclusive hx (fun hw => halloc (by omega))
        (by simp only [semaphore,event] at *; omega)
  · intro hpos
    change 0<s.resource.event+_ at hpos
    exact h.mark (by omega)

end

/-- An exclusive waiter takes the event. -/
theorem Inv.wakeExclusive (hpc : (s.threads t).pc = .waitingExclusive)
    (hevent : s.resource.exclusiveWaiters=some true) :
    Inv ⟨{ s.resource with exclusiveWaiters := some false },
      update s.threads t ((s.threads t).goto .wokenExclusive)⟩ := by
  have hent := h.entries t
  have hheld := hent.held_eq_zero (.inr (.inr hpc))
  have hnone := hent.none hheld (by simp [hpc]) (by simp [hpc])
  have howner : (s.threads t).owner=0 := owner_of_not hheld (by rw [hpc]; rfl)
  have howner' : ((s.threads t).goto .wokenExclusive).owner=1 := owner_of_woken rfl
  obtain ⟨ho,hs,hxu,hws,hwx⟩ := totals_update s.threads t ((s.threads t).goto .wokenExclusive)
    (weights_of_pc hpc (rfl : _=(0, 0, 0, 1))) (rfl : _=Totals.mk _ 0 0 0 0)
  obtain ⟨hnum,hshared,hexcl,halone,hfree,hcount,halloc⟩ := h.counts
  have hev : s.resource.event=1 := by simp [event,hevent]
  have hflag : s.resource.ownedExclusive=true := by
    by_contra hx
    have hfree' := hfree (by simpa using hx)
    omega
  have halone' := halone hflag
  have hmark := h.mark (by omega)
  refine h.of_same rfl rfl rfl ?_ (fun _ => hmark) ?_
  · refine .of_exclusive hflag (fun hw => halloc (by omega)) ?_
    simp only [semaphore,event,Option.getD_some,Bool.toNat_false] at *
    omega
  · exact ⟨fun hpos => absurd hheld (ne_of_gt hpos),fun hpos => absurd hheld (ne_of_gt hpos),
      by simp,fun _ => ⟨hflag,.inl hmark,fun slot c hc => absurd hc (hnone slot c)⟩,by simp,
      by simp,by simp [Pc.asksExclusive]⟩

/-- `KeSetEventBoostPriority` writes the thread it has woken to the owner entry. -/
theorem Inv.markOwner (hpc : (s.threads t).pc = .wokenExclusive) :
    Inv { s with
      resource :=
        { s.resource with
          ownerEntry := { s.resource.ownerEntry with ownerThread := .thread t } } } := by
  have hent := h.entries t
  obtain ⟨hflag,hmark,honly⟩ := hent.woken hpc
  have howner : (s.threads t).owner=1 := owner_of_woken (by rw [hpc]; rfl)
  have hheld := hent.held_eq_zero (.inl (by rw [hpc]; rfl))
  have hentry : ({ s.resource.ownerEntry with ownerThread := .thread t } : OwnerEntry τ) =
      ⟨.thread t,1⟩ := by
    obtain hm | hm := hmark <;> simp [hm]
  rw [hentry]
  have hset : s.resource.entry .first=some s.resource.ownerEntry := rfl
  have hno := h.no_unit howner
  refine ⟨h.counts.congr (.setEntry s.resource .first _),?_,?_⟩
  · intro hpos
    change 0<s.resource.event+(totals s.threads).exclusiveUnits at hpos
    omega
  · intro u
    by_cases hu : u=t
    · subst hu
      refine ⟨fun hpos => absurd hheld (ne_of_gt hpos),fun hpos => absurd hheld (ne_of_gt hpos),
        by simp [hpc],fun _ => ⟨hflag,.inr rfl,fun slot c hc => ?_⟩,by simp [hpc],
        by simp [hpc],by simp [hpc,Pc.asksExclusive]⟩
      have hc' : (s.resource.setEntry .first ⟨.thread u,1⟩).At slot u c := hc
      rw [at_setEntry hset] at hc'
      by_contra hslot
      rw [if_neg hslot] at hc'
      exact hslot (honly slot c hc')
    · have hother : s.resource.ownerEntry.ownerThread ≠ .thread u := by
        obtain hm | hm := hmark
        · simp [hm]
        · simpa [hm] using Ne.symm hu
      have hsame : SameFor s.resource (s.resource.setEntry .first ⟨.thread t,1⟩) u :=
        SameFor.setEntry hset hother (by simpa using Ne.symm hu)
      exact (h.entries u).frame hsame (fun _ => rfl) fun hw =>
        (h.not_wokenExclusive howner hu hw).elim

/-- The woken exclusive waiter writes itself to the owner entry and owns the resource. -/
theorem Inv.claim (hpc : (s.threads t).pc = .wokenExclusive) :
    Inv ⟨{ s.resource with ownerEntry := { s.resource.ownerEntry with ownerThread := .thread t } },
      update s.threads t ((s.threads t).granted true)⟩ := by
  have hmarked := h.markOwner hpc
  obtain ⟨hflag,-,honly⟩ := (hmarked.entries t).woken hpc
  have hat : s.resource.ownerEntry.ownerCount=1 := by
    obtain hm | hm := ((h.entries t).woken hpc).2.1 <;> rw [hm]
  have hheld := (h.entries t).held_eq_zero (.inl (by rw [hpc]; rfl))
  have howner : (s.threads t).owner=1 := owner_of_woken (by rw [hpc]; rfl)
  have howner' : (Thread.mk .running 1 true).owner=1 := owner_mk one_pos
  rw [granted_eq hheld]
  obtain ⟨ho,hs,hxu,hws,hwx⟩ := totals_update s.threads t ⟨.running,1,true⟩
    (weights_of_pc hpc (rfl : _=(0, 0, 0, 0))) (weights_of_plain rfl)
  have hT : totals (update s.threads t ⟨.running,1,true⟩)=totals s.threads := by
    ext <;> omega
  refine hmarked.of_same rfl rfl rfl ?_ ?_ ?_
  · rw [hT]
    exact hmarked.counts
  · rw [hT]
    exact hmarked.mark
  · exact .owning one_pos (by simp [ownerCountLimit]) ⟨by simp [At,entry,hat],honly⟩
      (fun _ => rfl) hflag.symm

/-- A shared waiter takes a unit of the semaphore. -/
theorem Inv.wakeShared {registered : Bool}
    (hpc : (s.threads t).pc = .waitingShared registered) (hheld : (s.threads t).held=0)
    (hsem : 0<s.resource.semaphore) (hnew : th'.weights=⟨1,0,0,0,0⟩)
    (own : s.resource.ownedExclusive=false → EntryOf s.resource t th') :
    Inv ⟨{ s.resource with sharedWaiters := s.resource.sharedWaiters.map (· - 1) },
      update s.threads t th'⟩ := by
  have howner : (s.threads t).owner=0 := owner_of_not hheld (by rw [hpc]; rfl)
  obtain ⟨ho,hs,hxu,hws,hwx⟩ := totals_update s.threads t th'
    (weights_of_pc hpc (rfl : _=(0, 0, 1, 0))) hnew
  have hflag := h.shared_of_unit hsem
  obtain ⟨hnum,hshared,hexcl,-,hfree,hcount,halloc⟩ := h.counts
  have hfree' := hfree hflag
  refine h.of_same rfl rfl rfl ?_ ?_ (own hflag)
  · cases hw : s.resource.sharedWaiters with
    | none => simp [Resource.semaphore,hw] at hsem
    | some n =>
      refine .of_shared hflag (fun _ => rfl) ?_
      simp only [semaphore,event,hw,Option.map_some,Option.getD_some] at *
      omega
  · intro hpos
    change 0<s.resource.event+_ at hpos
    exact h.mark (by omega)

/-- A waiter with an entry becomes an owner. -/
theorem Inv.wakeRegistered (hpc : (s.threads t).pc = .waitingShared true)
    (hsem : 0<s.resource.semaphore) :
    Inv ⟨{ s.resource with sharedWaiters := s.resource.sharedWaiters.map (· - 1) },
      update s.threads t ((s.threads t).granted false)⟩ := by
  have hent := h.entries t
  have hheld := hent.held_eq_zero (.inr (.inl hpc))
  rw [granted_eq hheld]
  obtain ⟨slot,-,hsole⟩ := hent.waiting hpc
  exact h.wakeShared hpc hheld hsem rfl fun hflag =>
    .owning one_pos (by simp [ownerCountLimit]) hsole (fun hx => absurd hx (by simp [hflag]))
      hflag.symm

/-- A waiter without an entry, that does not own the resource, leaves its wait. -/
theorem Inv.wakeUnregistered (hpc : (s.threads t).pc = .waitingShared false)
    (hheld : (s.threads t).held=0) (hsem : 0<s.resource.semaphore) :
    Inv ⟨{ s.resource with sharedWaiters := s.resource.sharedWaiters.map (· - 1) },
      update s.threads t ((s.threads t).goto .woken)⟩ := by
  have hnone := (h.entries t).none hheld (by simp [hpc]) (by simp [hpc])
  have howner : ((s.threads t).goto .woken).owner=1 := owner_of_woken rfl
  refine h.wakeShared hpc hheld hsem ?_ fun hflag =>
    .outside hheld (by simp) (by simp) (fun _ => hflag) hnone
  rw [Thread.weights,howner]
  rfl

/-- A woken waiter without an entry takes one of the table. -/
theorem Inv.registerWoken (hpc : (s.threads t).pc = .woken)
    (hslot : slot ≠ .first) (hfree : s.resource.FreeAt slot) :
    Inv ⟨s.resource.setEntry slot ⟨.thread t,1⟩,
      update s.threads t ((s.threads t).granted false)⟩ := by
  obtain ⟨c,hentry⟩ := hfree
  have hent := h.entries t
  have hheld := hent.held_eq_zero (.inl (by rw [hpc]; rfl))
  have hflag := hent.wokenShared (by rw [hpc]; rfl) (by simp [hpc])
  have hnone := hent.none hheld (by simp [hpc]) (by simp [hpc])
  have howner : (s.threads t).owner=1 := owner_of_woken (by rw [hpc]; rfl)
  have howner' : (Thread.mk .running 1 false).owner=1 := owner_mk one_pos
  rw [granted_eq hheld]
  obtain ⟨ho,hs,hxu,hws,hwx⟩ := totals_update s.threads t ⟨.running,1,false⟩
    (weights_of_pc hpc (rfl : _=(0, 0, 0, 0))) (weights_of_plain rfl)
  have hT : totals (update s.threads t ⟨.running,1,false⟩)=totals s.threads := by
    ext <;> omega
  have hsame := SameCounts.setEntry s.resource slot ⟨.thread t,1⟩
  refine h.of_step ?_ ?_ ?_ ?_ (fun u _ _ => hsame.ownedExclusive)
    (fun u _ _ => setEntry_ownerEntry hslot _)
  · rw [hT]
    exact h.counts.congr hsame
  · rw [hT,hsame.event,setEntry_ownerEntry hslot]
    exact h.mark
  · exact .owning one_pos (by simp [ownerCountLimit]) (Sole.take hentry hnone 1)
      (fun hx => absurd hx (by simp [hflag])) (hsame.ownedExclusive.trans hflag).symm
  · intro u hu
    exact SameFor.setEntry hentry (by simp) (by simpa using Ne.symm hu)

/-- A thread releases the units of the semaphore. -/
theorem Inv.releaseSemaphore {count : Nat} (hpc : (s.threads t).pc = .releasingSemaphore count) :
    Inv ⟨{ s.resource with sharedWaiters := s.resource.sharedWaiters.map (· + count) },
      update s.threads t ((s.threads t).goto .running)⟩ := by
  have howner : ((s.threads t).goto .running).owner=(s.threads t).owner :=
    owner_goto (by rw [hpc]; rfl)
  obtain ⟨ho,hs,hxu,hws,hwx⟩ := totals_update s.threads t ((s.threads t).goto .running)
    (weights_of_pc hpc (rfl : _=(count, 0, 0, 0))) (rfl : _=Totals.mk _ 0 0 0 0)
  obtain ⟨hnum,hshared,hexcl,halone,hfree,hcount,halloc⟩ := h.counts
  -- the waiters the units are for are still waiting, so the semaphore is there
  have hsem : (s.resource.sharedWaiters.map (· + count)).getD 0 =
      s.resource.sharedWaiters.getD 0+count := by
    cases hw : s.resource.sharedWaiters with
    | some n => rfl
    | none =>
      have hnot : ¬ 0<(totals s.threads).waitsShared := by
        intro hpos
        simpa [hw] using halloc hpos
      simp only [Option.map_none,Option.getD_none]
      omega
  have halloc' : 0<(totals (update s.threads t
      ((s.threads t).goto .running))).waitsShared →
      (s.resource.sharedWaiters.map (· + count)).isSome=true := by
    rw [Option.isSome_map]
    exact fun hw => halloc (by omega)
  refine h.of_same rfl rfl rfl ?_ ?_
    ((h.entries t).settle (by simp [hpc]) (by simp [hpc]) rfl (by simp) rfl rfl)
  · cases hx : s.resource.ownedExclusive with
    | false =>
      have hfree' := hfree hx
      exact .of_shared hx halloc' (by simp only [semaphore,event] at *; omega)
    | true =>
      have halone' := halone hx
      exact .of_exclusive hx halloc' (by simp only [semaphore,event] at *; omega)
  · intro hpos
    change 0<s.resource.event+_ at hpos
    exact h.mark (by omega)

/-- A thread sets the event. -/
theorem Inv.setEvent (hpc : (s.threads t).pc = .settingEvent) :
    Inv ⟨{ s.resource with exclusiveWaiters := some true },
      update s.threads t ((s.threads t).goto .running)⟩ := by
  have howner : ((s.threads t).goto .running).owner=(s.threads t).owner :=
    owner_goto (by rw [hpc]; rfl)
  obtain ⟨ho,hs,hxu,hws,hwx⟩ := totals_update s.threads t ((s.threads t).goto .running)
    (weights_of_pc hpc (rfl : _=(0, 1, 0, 0))) (rfl : _=Totals.mk _ 0 0 0 0)
  obtain ⟨hnum,hshared,hexcl,halone,hfree,hcount,halloc⟩ := h.counts
  have hflag : s.resource.ownedExclusive=true := by
    by_contra hx
    have hfree' := hfree (by simpa using hx)
    omega
  have halone' := halone hflag
  refine h.of_same rfl rfl rfl ?_ (fun _ => h.mark (by omega))
    ((h.entries t).settle (by simp [hpc]) (by simp [hpc]) rfl (by simp) rfl rfl)
  refine .of_exclusive hflag (fun hw => halloc (by omega)) ?_
  simp only [semaphore,event,Option.getD_some,Bool.toNat_true] at *
  omega

/-- The exclusive owner lets the shared waiters in. -/
theorem Inv.convert (hpc : (s.threads t).pc = .running)
    (hheld : 0<(s.threads t).held) (hx : (s.threads t).exclusive=true) (quiet : pc'.Quiet)
    (hunits : pc'.sharedUnits=s.resource.numberOfSharedWaiters) (hevent : pc'.exclusiveUnits=0) :
    Inv ⟨{ s.resource with
        ownedExclusive := false
        activeEntries := s.resource.activeEntries+s.resource.numberOfSharedWaiters
        numberOfSharedWaiters := 0 },
      update s.threads t ⟨pc',(s.threads t).held,false⟩⟩ := by
  have hent := h.entries t
  obtain ⟨hlt,hflag,slot,hsole,-⟩ := hent.held hheld
  rw [hx] at hflag
  have howner : (s.threads t).owner=1 := Thread.owner_of_held hheld
  have howner' : (Thread.mk pc' (s.threads t).held false).owner=1 := owner_mk hheld
  have hnew : (Thread.mk pc' (s.threads t).held false).weights =
      ⟨1,s.resource.numberOfSharedWaiters,0,0,0⟩ := by
    rw [Thread.weights,howner',hunits,hevent,quiet.waitsShared,quiet.waitsExclusive]
  obtain ⟨ho,hs,hxu,hws,hwx⟩ := totals_update s.threads t ⟨pc',(s.threads t).held,false⟩
    (weights_of_pc hpc (rfl : _=(0, 0, 0, 0))) hnew
  obtain ⟨hnum,hshared,hexcl,halone,hfree,hcount,halloc⟩ := h.counts
  have halone' := halone hflag.symm
  have hno := h.no_unit howner
  refine h.of_step ?_ ?_ ?_ (fun u _ => SameFor.of_eq rfl rfl u) ?_ (fun u _ _ => rfl)
  · exact .of_shared rfl (fun hw => halloc (by omega)) (by simp only [semaphore,event] at *; omega)
  · intro hpos
    change 0<s.resource.event+_ at hpos
    omega
  · exact ⟨fun _ => ⟨hlt,rfl,slot,hsole.congr (SameFor.of_eq rfl rfl t),
        fun hx' => absurd hx' (by simp)⟩,
      fun _ => ⟨quiet.isWoken,quiet.notRegistered,quiet.waitsExclusive⟩,
      fun hw => absurd hw quiet.notRegistered,fun hw => absurd hw quiet.notWokenExclusive,
      fun hw => absurd hw (by simp [quiet.isWoken]),fun h0 => absurd h0 (ne_of_gt hheld),
      fun ha => absurd ha (by simp [quiet.asksExclusive])⟩
  · intro u hu hown
    exact absurd (h.owner_unique hflag.symm howner hown) hu

end

/-- The weights after the last release of a thread. -/
theorem weights_released (hheld : th.held=1) (quiet : pc'.Quiet) :
    (th.released pc').weights=⟨0,pc'.sharedUnits,pc'.exclusiveUnits,0,0⟩ := by
  have howner : (th.released pc').owner=0 :=
    owner_of_not (by simp [released,hheld]) quiet.isWoken
  rw [Thread.weights,howner,released_pc,quiet.waitsShared,quiet.waitsExclusive]

/-- The last release of a thread: what is left to show of the resource. -/
theorem Inv.leave (h : s.Inv) (hheld : (s.threads t).held=1) (quiet : pc'.Quiet)
    (counts : Counts r' (totals (update s.threads t ((s.threads t).released pc'))))
    (mark : 0<r'.event +
        (totals (update s.threads t ((s.threads t).released pc'))).exclusiveUnits →
      r'.ownerEntry=⟨.handed,1⟩)
    (none : ∀ slot c, ¬ r'.At slot t c) (same : ∀ u, u≠t → SameFor s.resource r' u)
    (flag : ∀ u, u≠t → (s.threads u).owner=1 →
      r'.ownedExclusive=s.resource.ownedExclusive) :
    Inv ⟨r',update s.threads t ((s.threads t).released pc')⟩ := by
  have howner : (s.threads t).owner=1 := Thread.owner_of_held (by omega)
  refine h.of_step counts mark ?_ same flag fun u hu hw =>
    (h.not_wokenExclusive howner hu hw).elim
  exact .outside (by simp [released,hheld]) quiet.notRegistered quiet.notWokenExclusive
    (fun hw => absurd hw (by rw [released_pc,quiet.isWoken]; simp)) none

end State

end Odyssey.Ex
