import Odyssey.Lib.ListEntry

/-! Thread scheduler of one processor (`ntoskrnl/ke/thrdschd.c`, `ke_x.h`, `dpc.c`, `wait.c`). -/
namespace Odyssey.Ke
open ListEntry

inductive KThreadState where
  | initialized | ready | running | standby | terminated | waiting | transition | deferredReady
  | gateWait
deriving DecidableEq

inductive AdjustReason where
  | adjustNone | adjustUnwait | adjustBoost
deriving DecidableEq

def lowRealtimePriority : Int := 16

def highPriority : Int := 31

def maxQuantum : Int := 0x7F

def statusKernelApc : Int := 0x100

def dispatchLevel : Nat := 2

def schar (x : Int) : Int := x.bmod 256

/-- The fields of a `KTHREAD` the scheduler uses. `disableQuantum` is that of its process. -/
structure KThread where
  state : KThreadState
  priority : Int
  basePriority : Int
  priorityDecrement : Int
  adjustReason : AdjustReason
  adjustIncrement : Int
  quantum : Int
  quantumReset : Int
  waitStatus : Int
  waitIrql : Nat
  disableBoost : Bool
  disableQuantum : Bool
  preempted : Bool
  processReadyQueue : Bool

namespace KThread
variable (t : KThread)

def setState (state : KThreadState) : KThread := { t with state }

def setPriority (priority : Int) : KThread := { t with priority := schar priority }

def setDecrement (decrement : Int) : KThread := { t with priorityDecrement := schar decrement }

def setQuantum (quantum : Int) : KThread := { t with quantum := schar quantum }

def setPreempted (preempted : Bool) : KThread := { t with preempted }

def kiComputeNewPriority (adjustment : Int) : Int × KThread :=
  if t.priority<lowRealtimePriority then
    let priority := schar (t.priority-(t.priorityDecrement+adjustment))
    let priority := if priority<t.basePriority then t.basePriority else priority
    (priority, { t with priorityDecrement := 0 })
  else (t.priority, t)

def renewQuantum : KThread :=
  let (priority, t) := (t.setQuantum t.quantumReset).kiComputeNewPriority 1
  t.setPriority priority

def adjustForBoost : KThread :=
  let t :=
    if t.priority≤t.adjustIncrement ∧ t.priority<lowRealtimePriority-3 ∧ ¬t.disableBoost then
      let oldPriority := min (t.adjustIncrement+1) (lowRealtimePriority-3)
      let t := { t with
        priorityDecrement := schar (t.priorityDecrement+(schar oldPriority-t.priority)) }
      t.setPriority oldPriority
    else t
  let t := if t.quantum<4 then t.setQuantum 4 else t
  { t.setQuantum (t.quantum-1) with adjustReason := .adjustNone }

def useQuantum : KThread :=
  let t := t.setQuantum (t.quantum-1)
  if t.quantum≤0 then t.renewQuantum else t

def adjustQuantumForUnwait : KThread :=
  if t.basePriority ≥ lowRealtimePriority-2 then t.setQuantum t.quantumReset
  else
    let t := if t.priorityDecrement=0 ∧ t.adjustIncrement≠0 then t.setQuantum t.quantumReset
      else t
    if t.waitStatus≠statusKernelApc then t.useQuantum else t

def incrementForUnwait : KThread :=
  if t.priorityDecrement=0 ∧ ¬t.disableBoost then
    let oldPriority := t.basePriority+t.adjustIncrement
    if oldPriority > t.priority then
      let oldPriority :=
        if oldPriority ≥ lowRealtimePriority then lowRealtimePriority-1 else oldPriority
      let t := if oldPriority > t.basePriority+t.adjustIncrement then
          { t with priorityDecrement :=
              schar (schar oldPriority-t.basePriority-t.adjustIncrement) }
        else t
      t.setPriority oldPriority
    else t
  else t

def adjustForUnwait : KThread :=
  let t := if t.priority<lowRealtimePriority then t.adjustQuantumForUnwait.incrementForUnwait
    else t.setQuantum t.quantumReset
  { t with adjustReason := .adjustNone }

def adjust : KThread :=
  match t.adjustReason with
  | .adjustBoost => t.adjustForBoost
  | .adjustUnwait => t.adjustForUnwait
  | .adjustNone => t

end KThread

inductive ReadyLink (τ : Type*) where
  | head (priority : Nat)
  | thread (t : τ)
deriving DecidableEq

structure Prcb (τ : Type*) where
  threads : τ → KThread
  links : Links (ReadyLink τ)
  readySummary : Nat
  currentThread : τ
  nextThread : Option τ
  idleThread : τ
  kiIdleSummary : Bool

def priorityMask (priority : Nat) : Nat := 2^priority

namespace Prcb
variable {τ : Type*} [DecidableEq τ] (s : Prcb τ)

def modify (t : τ) (f : KThread → KThread) : Prcb τ :=
  { s with threads := Function.update s.threads t (f (s.threads t)) }

def setNext (next : Option τ) : Prcb τ := { s with nextThread := next }

def insertReady (atHead : Bool) (priority : Nat) (t : τ) : Prcb τ :=
  let links := if atHead then s.links.insertHeadList (.head priority) (.thread t)
    else s.links.insertTailList (.head priority) (.thread t)
  { s with links, readySummary := s.readySummary ||| priorityMask priority }

def removeReady (priority : Nat) (t : τ) : Prcb τ :=
  let readySummary := if s.links.isOnlyEntry (.thread t) then
    s.readySummary ^^^ priorityMask priority else s.readySummary
  { s with links := s.links.removeEntryList (.thread t), readySummary }

def kxQueueReadyThread (t : τ) : Prcb τ :=
  let s := s.modify t (·.setState .ready)
  let priority := (s.threads t).priority
  let preempted := (s.threads t).preempted
  let s := s.modify t (·.setPreempted false)
  s.insertReady preempted priority.toNat t

def kiSelectReadyThread (priority : Nat) : Option τ × Prcb τ :=
  let prioritySet := s.readySummary >>> priority
  if prioritySet=0 then (none, s)
  else
    let highPriority := prioritySet.log2+priority
    match s.links.flink (.head highPriority) with
    | .head _ => (none, s)
    | .thread t => (some t, s.removeReady highPriority t)

def selectNext (priority : Nat) : Prcb τ :=
  match s.kiSelectReadyThread priority with
  | (none, s) => s
  | (some t, s) => (s.modify t (·.setState .standby)).setNext (some t)

def kiDeferredReadyThread (s : Prcb τ) : Nat → τ → Option (Prcb τ)
  | 0, _ => none
  | fuel+1, t =>
    let s := s.modify t KThread.adjust
    let preempted := (s.threads t).preempted
    let oldPriority := (s.threads t).priority
    let s := s.modify t (·.setPreempted false)
    if s.kiIdleSummary then
      some { (s.modify t (·.setState .standby)).setNext (some t) with kiIdleSummary := false }
    else
      match s.nextThread with
      | some next =>
        if oldPriority > (s.threads next).priority then
          let s := s.modify next (·.setPreempted true)
          let s := (s.modify t (·.setState .standby)).setNext (some t)
          let s := s.modify next (·.setState .deferredReady)
          s.kiDeferredReadyThread fuel next
        else some ((s.modify t (·.setState .ready)).insertReady preempted oldPriority.toNat t)
      | none =>
        if oldPriority > (s.threads s.currentThread).priority then
          let s := if (s.threads s.currentThread).state = .running then
            s.modify s.currentThread (·.setPreempted true) else s
          some ((s.modify t (·.setState .standby)).setNext (some t))
        else some ((s.modify t (·.setState .ready)).insertReady preempted oldPriority.toNat t)

def deferredReadyFuel : Nat := 3

def kiInsertDeferredReadyList (t : τ) : Option (Prcb τ) :=
  (s.modify t (·.setState .deferredReady)).kiDeferredReadyThread deferredReadyFuel t

def kiSwapThread : Prcb τ :=
  match s.nextThread with
  | some next =>
    { (s.setNext none).modify next (·.setState .running) with currentThread := next }
  | none =>
    match s.kiSelectReadyThread 0 with
    | (some next, s) => { s.modify next (·.setState .running) with currentThread := next }
    | (none, s) =>
      { s.modify s.idleThread (·.setState .running) with
        currentThread := s.idleThread, kiIdleSummary := true }

def switchTo (next : τ) : Prcb τ :=
  let thread := s.currentThread
  let s := { s.setNext none with currentThread := next }
  let s := s.modify next (·.setState .running)
  s.kxQueueReadyThread thread

def kiExitDispatcher (oldIrql : Nat) : Prcb τ :=
  if oldIrql ≥ dispatchLevel then s
  else
    match s.nextThread with
    | none => s
    | some next =>
      let thread := s.currentThread
      (s.switchTo next).modify thread fun th => { th with waitIrql := oldIrql }

def endQuantum (t : τ) : Prcb τ :=
  let s := s.modify t KThread.renewQuantum
  match s.nextThread with
  | none => s.selectNext (s.threads t).priority.toNat
  | some _ => s.modify t (·.setPreempted false)

def adjustQuantum (t : τ) : Prcb τ :=
  if (s.threads t).priority<lowRealtimePriority ∧
      (s.threads t).basePriority<lowRealtimePriority-2 then
    let s := s.modify t fun th => th.setQuantum (th.quantum-1)
    if (s.threads t).quantum≤0 then s.endQuantum t else s
  else s

def kiAdjustQuantumThread (t : τ) : Prcb τ :=
  let s := s.adjustQuantum t
  s.kiExitDispatcher (s.threads t).waitIrql

/-- `KiSetPriorityThread`; `none` if it starts over for ever. -/
def kiSetPriorityThread (t : τ) (priority : Int) : Option (Prcb τ) :=
  if (s.threads t).priority=priority then some s
  else
    match (s.threads t).state with
    | .ready =>
      if (s.threads t).processReadyQueue then some (s.modify t (·.setPriority priority))
      else
        let s := s.removeReady (s.threads t).priority.toNat t
        (s.modify t (·.setPriority priority)).kiInsertDeferredReadyList t
    | .standby =>
      if s.nextThread=some t then
        let oldPriority := (s.threads t).priority
        let s := s.modify t (·.setPriority priority)
        if priority<oldPriority then
          match s.kiSelectReadyThread (priority+1).toNat with
          | (none, s) => some s
          | (some new, s) =>
            ((s.modify new (·.setState .standby)).setNext (some new)).kiInsertDeferredReadyList t
        else some s
      else none
    | .running =>
      if s.currentThread=t then
        let oldPriority := (s.threads t).priority
        let s := s.modify t (·.setPriority priority)
        if priority<oldPriority ∧ s.nextThread=none then
          some (s.selectNext (priority+1).toNat)
        else some s
      else none
    | .deferredReady => some s
    | _ => some (s.modify t (·.setPriority priority))

def checkQuantum (t : τ) : Prcb τ :=
  if (s.threads t).quantum≤0 then
    if (s.threads t).priority ≥ lowRealtimePriority ∧ (s.threads t).disableQuantum then
      s.modify t (·.setQuantum maxQuantum)
    else s.endQuantum t
  else s

def kiQuantumEnd : Prcb τ :=
  let thread := s.currentThread
  let s := s.checkQuantum thread
  match s.nextThread with
  | none => s
  | some next => (s.switchTo next).modify thread fun th => { th with waitIrql := 1 }

def ntYieldExecution : Prcb τ :=
  if s.readySummary=0 then s
  else
    let thread := s.currentThread
    let (next, s) := match s.nextThread with
      | some next => (some next, s)
      | none => s.kiSelectReadyThread 1
    match next with
    | none => s
    | some next =>
      let s := s.modify thread KThread.renewQuantum
      (s.switchTo next).modify thread fun th => { th with waitIrql := 1 }

end Prcb

theorem schar_eq {x : Int} (h1 : -128≤x) (h2 : x≤127) : schar x=x :=
  Int.bmod_eq_of_le (by omega) (by omega)

namespace KThread
variable {t t' u : KThread}

structure Valid (t : KThread) : Prop where
  priority_nonneg : 0≤t.priority
  priority_le : t.priority≤highPriority
  base_nonneg : 0≤t.basePriority
  base_le : t.basePriority≤highPriority
  decrement_nonneg : 0≤t.priorityDecrement
  decrement_le : t.priorityDecrement≤t.priority
  not_queued : t.processReadyQueue=false

def Dynamic (t : KThread) : Prop :=
  t.priority<lowRealtimePriority ∧ t.basePriority<lowRealtimePriority

structure Keeps (t t' : KThread) : Prop where
  valid : t.Valid → t'.Valid
  dynamic : t.Valid → t.Dynamic → t'.Dynamic

theorem Keeps.refl (t : KThread) : Keeps t t := ⟨id,fun _ => id⟩

theorem Keeps.trans (h : Keeps t t') (h' : Keeps t' u) : Keeps t u :=
  ⟨fun hv => h'.valid (h.valid hv),fun hv hd => h'.dynamic (h.valid hv) (h.dynamic hv hd)⟩

/-- Only the fields of `Valid` matter. -/
theorem Keeps.of_eq (h1 : t'.priority=t.priority) (h2 : t'.basePriority=t.basePriority)
    (h3 : t'.priorityDecrement=t.priorityDecrement)
    (h4 : t'.processReadyQueue=t.processReadyQueue) : Keeps t t' := by
  constructor
  · intro hv
    constructor
    · rw [h1]; exact hv.priority_nonneg
    · rw [h1]; exact hv.priority_le
    · rw [h2]; exact hv.base_nonneg
    · rw [h2]; exact hv.base_le
    · rw [h3]; exact hv.decrement_nonneg
    · rw [h1,h3]; exact hv.decrement_le
    · rw [h4]; exact hv.not_queued
  · intro _ hd
    rw [Dynamic,h1,h2]
    exact hd

theorem setState_keeps (t : KThread) (state : KThreadState) : Keeps t (t.setState state) :=
  .of_eq rfl rfl rfl rfl

theorem setPreempted_keeps (t : KThread) (b : Bool) : Keeps t (t.setPreempted b) :=
  .of_eq rfl rfl rfl rfl

theorem setQuantum_keeps (t : KThread) (q : Int) : Keeps t (t.setQuantum q) :=
  .of_eq rfl rfl rfl rfl

/-- A new priority that is in the range, with a decrement that is not above it. -/
theorem Keeps.of_priority (hbase : t'.basePriority=t.basePriority)
    (hqueue : t'.processReadyQueue=t.processReadyQueue)
    (hv : t.Valid → 0≤t'.priorityDecrement ∧ t'.priorityDecrement≤t'.priority ∧
      t'.priority≤highPriority)
    (hd : t.Valid → t.Dynamic → t'.priority<lowRealtimePriority) : Keeps t t' := by
  constructor
  · intro h
    obtain ⟨h1,h2,h3⟩ := hv h
    exact ⟨h1.trans h2,h3,hbase ▸ h.base_nonneg,hbase ▸ h.base_le,h1,h2,hqueue ▸ h.not_queued⟩
  · intro h h'
    exact ⟨hd h h',hbase ▸ h'.2⟩

section

variable (t)

theorem renewQuantum_keeps : Keeps t t.renewQuantum := by
  by_cases ht : t.priority<lowRealtimePriority
  · have hprio (hv : t.Valid) : t.renewQuantum.priority =
        max (t.priority-(t.priorityDecrement+1)) t.basePriority := by
      obtain ⟨h1,h2,h3,h4,h5,h6,h7⟩ := hv
      simp only [highPriority] at h2 h4
      have hp : schar (t.priority-(t.priorityDecrement+1)) =
          t.priority-(t.priorityDecrement+1) := schar_eq (by omega) (by omega)
      simp only [renewQuantum,kiComputeNewPriority,setQuantum,ht,if_true,setPriority,hp]
      split
      · rw [schar_eq (by omega) (by omega)]
        omega
      · rw [schar_eq (by omega) (by omega)]
        omega
    have hdec : t.renewQuantum.priorityDecrement=0 := by
      simp [renewQuantum,kiComputeNewPriority,setQuantum,ht,setPriority]
    have hbase : t.renewQuantum.basePriority=t.basePriority := by
      simp [renewQuantum,kiComputeNewPriority,setQuantum,ht,setPriority]
    have hqueue : t.renewQuantum.processReadyQueue=t.processReadyQueue := by
      simp [renewQuantum,kiComputeNewPriority,setQuantum,ht,setPriority]
    refine .of_priority hbase hqueue (fun hv => ?_) fun hv hd => ?_
    · have hp := hprio hv
      obtain ⟨h1,h2,h3,h4,h5,h6,h7⟩ := hv
      omega
    · have hp := hprio hv
      obtain ⟨h1,h2⟩ := hd
      have h3 := hv.decrement_nonneg
      omega
  · have hrenew : t.renewQuantum=(t.setQuantum t.quantumReset).setPriority t.priority := by
      simp [renewQuantum,kiComputeNewPriority,setQuantum,ht]
    rw [hrenew]
    have hprio (hv : t.Valid) :
        ((t.setQuantum t.quantumReset).setPriority t.priority).priority=t.priority := by
      obtain ⟨h1,h2,h3,h4,h5,h6,h7⟩ := hv
      simp only [highPriority] at h2
      exact schar_eq (by omega) (by omega)
    refine .of_priority rfl rfl (fun hv => ?_) fun hv hd => ?_
    · rw [hprio hv]
      exact ⟨hv.decrement_nonneg,hv.decrement_le,hv.priority_le⟩
    · rw [hprio hv]
      exact hd.1

theorem adjustForBoost_keeps : Keeps t t.adjustForBoost := by
  by_cases hc : t.priority≤t.adjustIncrement ∧ t.priority<lowRealtimePriority-3 ∧
      ¬t.disableBoost
  · obtain ⟨old,hold⟩ : ∃ old, old=min (t.adjustIncrement+1) (lowRealtimePriority-3) :=
      ⟨_,rfl⟩
    have hprio : t.adjustForBoost.priority=schar old ∧ t.adjustForBoost.priorityDecrement =
        schar (t.priorityDecrement+(schar old-t.priority)) ∧
        t.adjustForBoost.basePriority=t.basePriority ∧
        t.adjustForBoost.processReadyQueue=t.processReadyQueue := by
      simp only [adjustForBoost,if_pos hc,setPriority,setQuantum,← hold]
      split
      · exact ⟨rfl,rfl,rfl,rfl⟩
      · exact ⟨rfl,rfl,rfl,rfl⟩
    obtain ⟨hp,hdec,hbase,hqueue⟩ := hprio
    obtain ⟨hc1,hc2,-⟩ := hc
    simp only [lowRealtimePriority] at hc2 hold
    have hvals (hv : t.Valid) : t.adjustForBoost.priority=old ∧
        t.adjustForBoost.priorityDecrement=t.priorityDecrement+(old-t.priority) := by
      obtain ⟨h1,h2,h3,h4,h5,h6,h7⟩ := hv
      have hso : schar old=old := schar_eq (by omega) (by omega)
      rw [hp,hdec,hso]
      exact ⟨rfl,schar_eq (by omega) (by omega)⟩
    refine .of_priority hbase hqueue (fun hv => ?_) fun hv hd => ?_
    · obtain ⟨hp,hdec⟩ := hvals hv
      obtain ⟨h1,h2,h3,h4,h5,h6,h7⟩ := hv
      simp only [highPriority]
      omega
    · rw [(hvals hv).1]
      simp only [lowRealtimePriority]
      omega
  · simp only [adjustForBoost,if_neg hc]
    split
    · exact .of_eq rfl rfl rfl rfl
    · exact .of_eq rfl rfl rfl rfl

theorem useQuantum_keeps : Keeps t t.useQuantum := by
  refine (setQuantum_keeps t (t.quantum-1)).trans ?_
  rw [useQuantum]
  split
  · exact renewQuantum_keeps _
  · exact .refl _

theorem adjustQuantumForUnwait_keeps : Keeps t t.adjustQuantumForUnwait := by
  rw [adjustQuantumForUnwait]
  split
  · exact setQuantum_keeps _ _
  · have hfirst : Keeps t (if t.priorityDecrement=0 ∧ t.adjustIncrement≠0 then
        t.setQuantum t.quantumReset else t) := by
      split
      · exact setQuantum_keeps _ _
      · exact .refl t
    refine hfirst.trans ?_
    generalize (if t.priorityDecrement=0 ∧ t.adjustIncrement≠0 then
        t.setQuantum t.quantumReset else t)=u
    dsimp only
    split
    · exact useQuantum_keeps u
    · exact .refl u

theorem incrementForUnwait_keeps : Keeps t t.incrementForUnwait := by
  by_cases hc : t.priorityDecrement=0 ∧ ¬t.disableBoost
  · by_cases hgt : t.basePriority+t.adjustIncrement > t.priority
    · obtain ⟨old,hold⟩ : ∃ old, old=if t.basePriority+t.adjustIncrement ≥ lowRealtimePriority
        then lowRealtimePriority-1 else t.basePriority+t.adjustIncrement := ⟨_,rfl⟩
      have hrange (hv : t.Valid) : 0≤old ∧ old<lowRealtimePriority := by
        have h0 := hv.priority_nonneg
        rw [hold]
        split
        · simp only [lowRealtimePriority]
          omega
        · exact ⟨by omega,by omega⟩
      have hno : ¬old > t.basePriority+t.adjustIncrement := by
        rw [hold]
        split
        · omega
        · omega
      have hset : t.incrementForUnwait=t.setPriority old := by
        simp only [incrementForUnwait,if_pos hc,if_pos hgt,← hold,if_neg hno]
      have hprio (hv : t.Valid) : (t.setPriority old).priority=old := by
        obtain ⟨h1,h2⟩ := hrange hv
        simp only [lowRealtimePriority] at h2
        exact schar_eq (by omega) (by omega)
      have hdec : (t.setPriority old).priorityDecrement=0 := hc.1
      rw [hset]
      refine .of_priority rfl rfl (fun hv => ?_) fun hv _ => ?_
      · obtain ⟨h1,h2⟩ := hrange hv
        rw [hprio hv]
        simp only [lowRealtimePriority,highPriority] at *
        omega
      · rw [hprio hv]
        exact (hrange hv).2
    · have hset : t.incrementForUnwait=t := by
        simp [incrementForUnwait,if_neg hgt]
      rw [hset]
      exact .refl t
  · rw [incrementForUnwait,if_neg hc]
    exact .refl t

theorem adjustForUnwait_keeps : Keeps t t.adjustForUnwait := by
  have hreason : ∀ u : KThread, Keeps u { u with adjustReason := .adjustNone } :=
    fun u => .of_eq rfl rfl rfl rfl
  refine Keeps.trans ?_ (hreason _)
  split
  · exact (adjustQuantumForUnwait_keeps t).trans (incrementForUnwait_keeps _)
  · exact setQuantum_keeps _ _

theorem adjust_keeps : Keeps t t.adjust := by
  rw [adjust]
  cases t.adjustReason with
  | adjustNone => exact .refl t
  | adjustUnwait => exact adjustForUnwait_keeps t
  | adjustBoost => exact adjustForBoost_keeps t

theorem renewQuantum_state : t.renewQuantum.state=t.state := by
  simp only [renewQuantum,kiComputeNewPriority]
  split
  · rfl
  · rfl

theorem adjustForBoost_state : t.adjustForBoost.state=t.state := by
  simp only [adjustForBoost]
  split
  · split
    · rfl
    · rfl
  · split
    · rfl
    · rfl

theorem useQuantum_state : t.useQuantum.state=t.state := by
  rw [useQuantum]
  split
  · rw [renewQuantum_state]
    rfl
  · rfl

theorem adjustQuantumForUnwait_state : t.adjustQuantumForUnwait.state=t.state := by
  rw [adjustQuantumForUnwait]
  split
  · rfl
  · have hfirst : (if t.priorityDecrement=0 ∧ t.adjustIncrement≠0 then
        t.setQuantum t.quantumReset else t).state=t.state := by
      split
      · rfl
      · rfl
    rw [← hfirst]
    generalize (if t.priorityDecrement=0 ∧ t.adjustIncrement≠0 then
        t.setQuantum t.quantumReset else t)=u
    dsimp only
    split
    · exact useQuantum_state u
    · rfl

theorem incrementForUnwait_state : t.incrementForUnwait.state=t.state := by
  rw [incrementForUnwait]
  split
  · dsimp only
    split
    · rw [setPriority]
      generalize (if t.basePriority+t.adjustIncrement ≥ lowRealtimePriority
        then lowRealtimePriority-1 else t.basePriority+t.adjustIncrement)=old
      split
      · rfl
      · rfl
    · rfl
  · rfl

theorem adjustForUnwait_state : t.adjustForUnwait.state=t.state := by
  rw [adjustForUnwait]
  split
  · rw [incrementForUnwait_state,adjustQuantumForUnwait_state]
  · rfl

@[simp] theorem adjust_state : t.adjust.state=t.state := by
  rw [adjust]
  cases t.adjustReason with
  | adjustNone => rfl
  | adjustUnwait => exact adjustForUnwait_state t
  | adjustBoost => exact adjustForBoost_state t

@[simp] theorem adjust_adjustReason : t.adjust.adjustReason = .adjustNone := by
  rw [adjust]
  cases h : t.adjustReason with
  | adjustNone => exact h
  | adjustUnwait => rfl
  | adjustBoost => rfl

end

theorem adjust_eq (h : t.adjustReason = .adjustNone) : t.adjust=t := by
  rw [adjust,h]

/-- A decrement and a priority that are in the range, as set together. -/
theorem Valid.setBoth (h : t.Valid) {d p : Int} (hd : 0≤d) (hdp : d≤p) (hp : p≤highPriority) :
    ((t.setDecrement d).setPriority p).Valid ∧ ((t.setDecrement d).setPriority p).priority=p := by
  simp only [highPriority] at hp
  have hp' : schar p=p := schar_eq (by omega) (by omega)
  have hd' : schar d=d := schar_eq (by omega) (by omega)
  have h1 : ((t.setDecrement d).setPriority p).priority=p := hp'
  have h2 : ((t.setDecrement d).setPriority p).priorityDecrement=d := hd'
  refine ⟨⟨?_,?_,h.base_nonneg,h.base_le,?_,?_,h.not_queued⟩,h1⟩
  · omega
  · simp only [highPriority]
    omega
  · omega
  · omega

end KThread

end Odyssey.Ke
