import Odyssey.Npfs.ByteStreamCopy

/-! The two directions of a byte-stream connection are queues of bytes in every run. -/
namespace Odyssey.Npfs

open ByteMem RingBuffer Function List

def Ccb.ring (ccb : Ccb) : Nat × Nat × Nat × Nat × Nat × Nat :=
  (ccb.data, ccb.maxDataLength, ccb.readPtr, ccb.writePtr, ccb.readDataAvailable,
    ccb.writeQuotaAvailable)

def Irp.request (irp : Irp) : MajorFunction × PipeEnd × Mem × Nat × Bool :=
  (irp.majorFunction, irp.pipeEnd, irp.buffer, irp.information, irp.synchronous)

@[simp] theorem PipeEnd.other_other (e : PipeEnd) : e.other.other=e := by
  cases e <;> rfl

theorem PipeEnd.eq_or_other (e r : PipeEnd) : e=r ∨ e=r.other := by
  cases e <;> cases r <;> simp [PipeEnd.other]

namespace Connection

variable {c : Connection} {shape : PipeEnd → Nat × Nat} {f : Ccb → Ccb} {l : List Nat} {r : PipeEnd}
  {i j : Nat}

section Updates

variable (c : Connection) (e : PipeEnd) (i : Nat) (f : Ccb → Ccb) (g : Irp → Irp) {β : Type}

@[simp] theorem modifyCcb_ccb_self : (c.modifyCcb e f).ccb e=f (c.ccb e) := by
  simp [modifyCcb]

@[simp] theorem modifyCcb_irps : (c.modifyCcb e f).irps=c.irps := rfl

@[simp] theorem modifyCcb_mem : (c.modifyCcb e f).mem=c.mem := rfl

@[simp] theorem modifyCcb_returned : (c.modifyCcb e f).returned=c.returned := rfl

@[simp] theorem modifyCcb_accepted : (c.modifyCcb e f).accepted=c.accepted := rfl

@[simp] theorem modifyIrp_irps_self : (c.modifyIrp i g).irps i=g (c.irps i) := by
  simp [modifyIrp]

@[simp] theorem modifyIrp_ccb : (c.modifyIrp i g).ccb=c.ccb := rfl

@[simp] theorem modifyIrp_mem : (c.modifyIrp i g).mem=c.mem := rfl

@[simp] theorem modifyIrp_returned : (c.modifyIrp i g).returned=c.returned := rfl

@[simp] theorem modifyIrp_accepted : (c.modifyIrp i g).accepted=c.accepted := rfl

theorem modifyCcb_ccb_of_ne (h : r≠e) : (c.modifyCcb e f).ccb r=c.ccb r := by
  simp [modifyCcb,h]

theorem modifyIrp_irps_of_ne {j : Nat} (h : j≠i) : (c.modifyIrp i g).irps j=c.irps j := by
  simp [modifyIrp,h]

variable {c e i f g}

/-- What `f` keeps is kept for both ends. -/
theorem modifyCcb_congr (φ : Ccb → β) (h : φ (f (c.ccb e))=φ (c.ccb e)) (r : PipeEnd) :
    φ ((c.modifyCcb e f).ccb r)=φ (c.ccb r) := by
  by_cases hr : r=e
  · rw [hr,modifyCcb_ccb_self,h]
  · rw [modifyCcb_ccb_of_ne _ _ _ hr]

theorem modifyIrp_congr (φ : Irp → β) (h : φ (g (c.irps i))=φ (c.irps i)) (j : Nat) :
    φ ((c.modifyIrp i g).irps j)=φ (c.irps j) := by
  by_cases hj : j=i
  · rw [hj,modifyIrp_irps_self,h]
  · rw [modifyIrp_irps_of_ne _ _ _ hj]

end Updates

structure Streams (c : Connection) (shape : PipeEnd → Nat × Nat)
    (flight : PipeEnd → List (BitVec 8)) : Prop where
  shape : ∀ e, ((c.ccb e).data, (c.ccb e).maxDataLength)=shape e
  ring : ∀ e, (c.ccb e).data≠0 → (c.ccb e).Ring
  apart : ∀ e, (c.ccb e).data≠0 → (c.ccb e.other).data≠0 →
    (c.ccb e).data+(c.ccb e).maxDataLength≤(c.ccb e.other).data ∨
      (c.ccb e.other).data+(c.ccb e.other).maxDataLength≤(c.ccb e).data
  bytes : ∀ e, (c.ccb e).data≠0 → (c.accepted e).map Prod.snd=c.returned e++flight e ++
    contents c.mem (c.ccb e).data (c.ccb e).maxDataLength (c.ccb e).readPtr
      (c.ccb e).readDataAvailable

structure Requests (c : Connection) (busy : Option Nat) : Prop where
  nodup : ∀ e, (c.ccb e).readRequests.Nodup
  request : ∀ e, ∀ i∈(c.ccb e).readRequests, (c.irps i).pipeEnd=e ∧
    (c.irps i).majorFunction = .read ∧ (c.irps i).status≠none ∧ (c.ccb e).data≠0
  idle : ∀ e, ∀ i∈(c.ccb e).readRequests, busy≠some i → (c.irps i).information=0
  serving : ∀ i, busy=some i → (c.ccb (c.irps i).pipeEnd).readRequests.head?=some i
  fresh : ∀ i, (c.irps i).status=none →
    (c.irps i).wait = .nothing ∧ (c.irps i).event=false ∧ (c.irps i).information=0
  queued : ∀ i, (c.irps i).wait ≠ .nothing → (c.irps i).wait ≠ .writeEvent →
    i∈(c.ccb (c.irps i).pipeEnd).readRequests
  /-- The reads that their thread or the waiter thread can go on with. -/
  first : ∀ i, (c.irps i).wait = .readEvent ∨ (c.irps i).wait = .waiterThread ∨
    ((c.irps i).wait = .turn ∧ (c.irps i).event=true) →
      (c.ccb (c.irps i).pipeEnd).readRequests.head?=some i
  writer : ∀ i, (c.irps i).wait = .writeEvent → (c.irps i).majorFunction = .write ∧
    (c.ccb (c.irps i).pipeEnd.other).data≠0
  asynchronous : ∀ i, (c.irps i).wait = .waiterThread → (c.irps i).synchronous=false

def Writes (c : Connection) : Prop :=
  ∀ i, (c.irps i).majorFunction = .write →
    ((c.accepted (c.irps i).pipeEnd.other).filter (·.1=i)).map Prod.snd =
      stretch (c.irps i).buffer 0 (c.irps i).information

def flight (c : Connection) : Option Nat → PipeEnd → List (BitVec 8)
  | none, _ => []
  | some i, e =>
    if (c.irps i).pipeEnd=e then stretch (c.irps i).buffer 0 (c.irps i).information else []

structure Inv (c : Connection) (shape : PipeEnd → Nat × Nat) (busy : Option Nat) : Prop where
  streams : c.Streams shape (c.flight busy)
  requests : c.Requests busy
  writes : c.Writes

variable {e : PipeEnd}

theorem Streams.modifyCcb {flight : PipeEnd → List (BitVec 8)} (h : c.Streams shape flight)
    (hf : (f (c.ccb e)).ring=(c.ccb e).ring) :
    (c.modifyCcb e f).Streams shape flight := by
  have hring := modifyCcb_congr Ccb.ring hf
  simp only [Ccb.ring,Prod.mk.injEq] at hring
  refine ⟨fun r => ?_,fun r hr => ?_,fun r hr hr' => ?_,fun r hr => ?_⟩
  · rw [(hring r).1,(hring r).2.1]
    exact h.shape r
  · obtain ⟨hd,hm,hrp,hwp,hra,hwq⟩ := hring r
    rw [hd] at hr
    obtain ⟨h1,h2,h3,h4,h5⟩ := h.ring r hr
    constructor
    all_goals simp only [hd,hm,hrp,hwp,hra,hwq]
    all_goals assumption
  · obtain ⟨hd,hm,-⟩ := hring r
    obtain ⟨hd',hm',-⟩ := hring r.other
    rw [hd] at hr
    rw [hd'] at hr'
    rw [hd,hm,hd',hm']
    exact h.apart r hr hr'
  · obtain ⟨hd,hm,hrp,-,hra,-⟩ := hring r
    rw [hd] at hr
    rw [modifyCcb_returned,hd,hm,hrp,hra]
    exact h.bytes r hr

variable {busy : Option Nat}

/-- The requests do not depend on the buffers, nor on the bytes that the busy read and the writes
have moved. -/
theorem Requests.congr (h : c.Requests busy) {c' : Connection} {buffer : Nat → Mem} {n : Nat → Nat}
    (hdata : ∀ r, (c'.ccb r).data=(c.ccb r).data)
    (hlist : ∀ r, (c'.ccb r).readRequests=(c.ccb r).readRequests)
    (hirps : ∀ j, c'.irps j={ c.irps j with buffer := buffer j, information := n j })
    (hn : ∀ j, n j≠(c.irps j).information → (busy=some j ∨ (c.irps j).majorFunction = .write) ∧
      (c.irps j).status≠none) : c'.Requests busy := by
  constructor
  all_goals simp only [hirps,hlist,hdata]
  · exact h.nodup
  · exact h.request
  · intro e j hj hb
    by_contra hne
    obtain hbusy | hwrite := (hn j fun heq => hne (heq.trans (h.idle e j hj hb))).1
    · exact hb hbusy
    · exact absurd ((h.request e j hj).2.1.symm.trans hwrite) (by decide)
  · exact h.serving
  · intro j hj
    have hfresh := h.fresh j hj
    refine ⟨hfresh.1,hfresh.2.1,?_⟩
    by_contra hne
    exact (hn j fun heq => hne (heq.trans hfresh.2.2)).2 hj
  · exact h.queued
  · exact h.first
  · exact h.writer
  · exact h.asynchronous

theorem Requests.modifyCcb (h : c.Requests busy) (hd : (f (c.ccb e)).data=(c.ccb e).data)
    (hl : (f (c.ccb e)).readRequests=(c.ccb e).readRequests) :
    (c.modifyCcb e f).Requests busy :=
  h.congr (modifyCcb_congr Ccb.data hd) (modifyCcb_congr Ccb.readRequests hl) (fun _ => rfl)
    fun _ hne => absurd rfl hne

/-- Events can be set and reset at any time. -/
theorem Inv.modifyCcb (h : c.Inv shape busy) (hf : (f (c.ccb e)).ring=(c.ccb e).ring)
    (hl : (f (c.ccb e)).readRequests=(c.ccb e).readRequests) : (c.modifyCcb e f).Inv shape busy :=
  ⟨h.streams.modifyCcb hf,h.requests.modifyCcb (congrArg Prod.fst hf) hl,h.writes⟩

theorem Inv.wakeWriter (h : c.Inv shape busy) (e : PipeEnd) : (c.wakeWriter e).Inv shape busy := by
  unfold Connection.wakeWriter
  split
  · exact h.modifyCcb rfl rfl
  · exact h

structure MayWait (c : Connection) (i : Nat) (irp : Irp) : Prop where
  fresh : irp.status=none → (c.irps i).status=none ∧ irp.wait = .nothing ∧ irp.event=false
  queued : irp.wait ≠ .nothing → irp.wait ≠ .writeEvent →
    i∈(c.ccb (c.irps i).pipeEnd).readRequests
  first : irp.wait = .readEvent ∨ irp.wait = .waiterThread ∨
    (irp.wait = .turn ∧ irp.event=true) →
      (c.ccb (c.irps i).pipeEnd).readRequests.head?=some i
  writer : irp.wait = .writeEvent → (c.irps i).majorFunction = .write ∧
    (c.ccb (c.irps i).pipeEnd.other).data≠0
  asynchronous : irp.wait = .waiterThread → (c.irps i).synchronous=false

theorem Inv.modifyIrp (h : c.Inv shape busy) {g : Irp → Irp}
    (hg : (g (c.irps i)).request=(c.irps i).request) (hw : c.MayWait i (g (c.irps i))) :
    (c.modifyIrp i g).Inv shape busy := by
  have hreq := modifyIrp_congr Irp.request hg
  simp only [Irp.request,Prod.mk.injEq] at hreq
  have hflight : (c.modifyIrp i g).flight busy=c.flight busy := by
    funext e
    cases busy with
    | none => rfl
    | some j =>
      obtain ⟨-,hp,hb,hi,-⟩ := hreq j
      rw [Connection.flight,Connection.flight,hp,hb,hi]
  refine ⟨?_,?_,fun j hj => ?_⟩
  · rw [hflight]
    exact ⟨h.streams.shape,h.streams.ring,h.streams.apart,h.streams.bytes⟩
  · have hcases : ∀ j, j=i ∨ (c.modifyIrp i g).irps j=c.irps j := by
      intro j
      by_cases hj : j=i
      · exact .inl hj
      · exact .inr (modifyIrp_irps_of_ne _ _ _ hj)
    have hr := h.requests
    constructor
    · exact hr.nodup
    · intro e j hj
      rw [(hreq j).2.1,(hreq j).1]
      obtain ⟨he,hm,hs,hd⟩ := hr.request e j hj
      refine ⟨he,hm,?_,hd⟩
      obtain rfl | hj' := hcases j
      · rw [modifyIrp_irps_self]
        exact fun hnone => hs (hw.fresh hnone).1
      · rw [hj']
        exact hs
    · intro e j hj hb
      rw [(hreq j).2.2.2.1]
      exact hr.idle e j hj hb
    · intro j hj
      rw [(hreq j).2.1]
      exact hr.serving j hj
    · intro j hj
      rw [(hreq j).2.2.2.1]
      obtain rfl | hj' := hcases j
      · rw [modifyIrp_irps_self] at hj ⊢
        exact ⟨(hw.fresh hj).2.1,(hw.fresh hj).2.2,(hr.fresh j (hw.fresh hj).1).2.2⟩
      · rw [hj'] at hj ⊢
        exact hr.fresh j hj
    · intro j
      rw [(hreq j).2.1]
      obtain rfl | hj' := hcases j
      · rw [modifyIrp_irps_self]
        exact hw.queued
      · rw [hj']
        exact hr.queued j
    · intro j
      rw [(hreq j).2.1]
      obtain rfl | hj' := hcases j
      · rw [modifyIrp_irps_self]
        exact hw.first
      · rw [hj']
        exact hr.first j
    · intro j
      rw [(hreq j).2.1,(hreq j).1]
      obtain rfl | hj' := hcases j
      · rw [modifyIrp_irps_self]
        exact hw.writer
      · rw [hj']
        exact hr.writer j
    · intro j
      rw [(hreq j).2.2.2.2]
      obtain rfl | hj' := hcases j
      · rw [modifyIrp_irps_self]
        exact hw.asynchronous
      · rw [hj']
        exact hr.asynchronous j
  · obtain ⟨hm,hp,hb,hi,-⟩ := hreq j
    rw [hm] at hj
    rw [hp,hb,hi]
    exact h.writes j hj

theorem Inv.head_mem (h : c.Inv shape busy) (hb : busy=some i) :
    i∈(c.ccb (c.irps i).pipeEnd).readRequests :=
  mem_of_head? (h.requests.serving i hb)

/-- A thread takes up the first request. -/
theorem Inv.start (h : c.Inv shape none)
    (hi : (c.ccb (c.irps i).pipeEnd).readRequests.head?=some i) : c.Inv shape (some i) := by
  have hinfo := h.requests.idle _ i (mem_of_head? hi) (by simp)
  have hflight : c.flight (some i)=c.flight none := by
    funext e
    simp [flight,hinfo]
  have hr := h.requests
  refine ⟨?_,⟨hr.nodup,hr.request,fun e j hj _ => hr.idle e j hj (by simp),?_,hr.fresh,
    hr.queued,hr.first,hr.writer,hr.asynchronous⟩,h.writes⟩
  · rw [hflight]
    exact h.streams
  · intro j hj
    obtain rfl := Option.some.inj hj
    exact hi

/-- The thread leaves the request it has worked on as it is. -/
theorem Inv.stop (h : c.Inv shape (some i)) (hinfo : (c.irps i).information=0) :
    c.Inv shape none := by
  have hflight : c.flight (some i)=c.flight none := by
    funext e
    simp [flight,hinfo]
  have hr := h.requests
  refine ⟨?_,⟨hr.nodup,hr.request,fun e j hj _ => ?_,by simp,hr.fresh,hr.queued,hr.first,
    hr.writer,hr.asynchronous⟩,h.writes⟩
  · rw [← hflight]
    exact h.streams
  · by_cases hji : j=i
    · rw [hji]
      exact hinfo
    · exact hr.idle e j hj fun he => hji (Option.some.inj he).symm

/-- A thread leaves the driver: it waits for `wait` or has completed its request. -/
theorem Inv.leave (h : c.Inv shape (some i)) (hinfo : (c.irps i).information=0) {wait : Wait}
    (hwait : wait = .nothing ∨ wait = .readEvent ∨
      wait = .waiterThread ∧ (c.irps i).synchronous=false) (status : Status) :
    (c.modifyIrp i fun irp => { irp with wait, status := some status }).Inv shape none := by
  have hinv : (c.modifyIrp i fun irp => { irp with wait, status := some status }).Inv shape
    (some i) := by
    refine h.modifyIrp rfl ⟨by simp,fun _ _ => h.head_mem rfl,fun _ => h.requests.serving i rfl,
      ?_,?_⟩
    all_goals obtain rfl | rfl | ⟨rfl,hasync⟩ := hwait
    all_goals simp
    exact hasync
  exact hinv.stop (by simpa using hinfo)

structure NewList (c : Connection) (e : PipeEnd) (l : List Nat) (busy : Option Nat) : Prop where
  nodup : l.Nodup
  request : ∀ i∈l, (c.irps i).pipeEnd=e ∧ (c.irps i).majorFunction = .read ∧
    (c.irps i).status≠none ∧ (c.ccb e).data≠0
  idle : ∀ i∈l, busy≠some i → (c.irps i).information=0
  serving : ∀ i, busy=some i → (c.irps i).pipeEnd=e ∧ l.head?=some i
  queued : ∀ i∈(c.ccb e).readRequests, (c.irps i).wait ≠ .nothing → i∈l
  first : ∀ i, (c.ccb e).readRequests.head?=some i → (c.irps i).wait ≠ .nothing → l.head?=some i

theorem Requests.setList {old busy : Option Nat} (h : c.Requests old)
    (hl : c.NewList e l busy) (hold : ∀ i, old=some i → (c.irps i).pipeEnd=e) :
    (c.modifyCcb e fun ccb => { ccb with readRequests := l }).Requests busy := by
  have hself : ((c.modifyCcb e fun ccb => { ccb with readRequests := l }).ccb e).readRequests=l :=
    congrArg Ccb.readRequests (modifyCcb_ccb_self c e _)
  have hother : ∀ r, r≠e → (c.modifyCcb e fun ccb => { ccb with readRequests := l }).ccb r =
      c.ccb r := fun r hr => modifyCcb_ccb_of_ne _ _ _ hr
  have hdata : ∀ r, ((c.modifyCcb e fun ccb => { ccb with readRequests := l }).ccb r).data =
      (c.ccb r).data := modifyCcb_congr Ccb.data rfl
  have hnodup : ∀ r, ((c.modifyCcb e fun ccb => { ccb with readRequests := l }).ccb
    r).readRequests.Nodup
      := by
    intro r
    by_cases hr : r=e
    · rw [hr,hself]
      exact hl.nodup
    · rw [hother r hr]
      exact h.nodup r
  refine ⟨hnodup,?_,?_,?_,?_,?_,?_,?_,?_⟩
  all_goals simp only [modifyCcb_irps,hdata]
  · intro r
    by_cases hr : r=e
    · rw [hr,hself]
      exact hl.request
    · rw [hother r hr]
      exact h.request r
  · intro r i hi hb
    by_cases hr : r=e
    · rw [hr,hself] at hi
      exact hl.idle i hi hb
    · rw [hother r hr] at hi
      refine h.idle r i hi fun hold' => hr ?_
      rw [← (h.request r i hi).1,hold i hold']
  · intro i hb
    obtain ⟨he,hhead⟩ := hl.serving i hb
    rw [he,hself,hhead]
  · exact h.fresh
  · intro i hw hw'
    by_cases hr : (c.irps i).pipeEnd=e
    · rw [hr,hself]
      exact hl.queued i (hr ▸ h.queued i hw hw') hw
    · rw [hother _ hr]
      exact h.queued i hw hw'
  · intro i hw
    have hne : (c.irps i).wait ≠ .nothing := by
      intro hn
      simp [hn] at hw
    by_cases hr : (c.irps i).pipeEnd=e
    · rw [hr,hself]
      exact hl.first i (hr ▸ h.first i hw) hne
    · rw [hother _ hr]
      exact h.first i hw
  · exact h.writer
  · exact h.asynchronous

theorem head?_erase_of_ne (h : l.head?=some j) (hne : j≠i) : (l.erase i).head?=some j := by
  cases l with
  | nil => simp at h
  | cons k l =>
    obtain rfl : k=j := by simpa using h
    rw [erase_cons_tail (by simpa using hne)]
    rfl

/-- A request that nobody waits for is taken off the list. -/
theorem Requests.erase {old : Option Nat} (h : c.Requests old)
    (hold : old=none ∨ old=some i) (hw : (c.irps i).wait = .nothing) :
    (c.removeEntryList i).Requests none := by
  have hnot : ∀ j, j≠i → old≠some j := by
    intro j hj he
    obtain hold | hold := hold
    · simp [hold] at he
    · exact hj (Option.some.inj (he.symm.trans hold))
  have hne : ∀ j∈(c.ccb (c.irps i).pipeEnd).readRequests.erase i, j≠i := by
    rintro j hj rfl
    exact (h.nodup _).not_mem_erase hj
  have hl : c.NewList (c.irps i).pipeEnd
    ((c.ccb (c.irps i).pipeEnd).readRequests.erase i) none := by
    refine ⟨(h.nodup _).erase i,fun j hj => h.request _ j (mem_of_mem_erase hj),
      fun j hj _ => h.idle _ j (mem_of_mem_erase hj) (hnot j (hne j hj)),by simp,
      fun j hj hwj => (mem_erase_of_ne ?_).mpr hj,fun j hj hwj => head?_erase_of_ne hj ?_⟩
    all_goals
      rintro rfl
      exact hwj hw
  refine h.setList hl fun j hj => ?_
  obtain rfl : j=i := by
    by_contra hji
    exact hnot j hji hj
  rfl

theorem Inv.erase (h : c.Inv shape none) (hw : (c.irps i).wait = .nothing) :
    (c.removeEntryList i).Inv shape none :=
  ⟨h.streams.modifyCcb rfl,h.requests.erase (.inl rfl) hw,h.writes⟩

/-- A new request at the end of the list: it waits there, or it is the first one. -/
theorem Requests.append (h : c.Requests none) (hread : (c.irps i).majorFunction = .read)
    (hs : (c.irps i).status≠none) (hdata : (c.ccb (c.irps i).pipeEnd).data≠0)
    (hnot : i∉(c.ccb (c.irps i).pipeEnd).readRequests) (hinfo : (c.irps i).information=0)
    (hb : busy=none ∨ busy=some i ∧ (c.ccb (c.irps i).pipeEnd).readRequests=[]) :
    (c.insertTailList i).Requests busy := by
  refine h.setList ⟨?_,fun j hj => ?_,fun j hj hbj => ?_,fun j hj => ?_,fun j hj _ => by simp [hj],
    fun j hj _ => by simp [hj]⟩ (by simp)
  · rw [nodup_append]
    refine ⟨h.nodup _,by simp,fun j hj k hk => ?_⟩
    obtain rfl : k=i := by simpa using hk
    rintro rfl
    exact hnot hj
  · obtain hj | hj := mem_append.mp hj
    · exact h.request _ j hj
    · obtain rfl : j=i := by simpa using hj
      exact ⟨rfl,hread,hs,hdata⟩
  · obtain hj | hj := mem_append.mp hj
    · exact h.idle _ j hj (by simp)
    · obtain rfl : j=i := by simpa using hj
      exact hinfo
  · obtain rfl | ⟨rfl,hnil⟩ := hb
    · simp at hj
    · obtain rfl := Option.some.inj hj
      exact ⟨rfl,by simp [hnil]⟩

/-- A request ends without a byte. -/
theorem Inv.complete (h : c.Inv shape busy) (i : Nat) (status : Status) :
    (c.complete i status).Inv shape busy := by
  refine h.modifyIrp rfl ⟨by simp,?_,?_,?_,?_⟩
  all_goals simp

theorem Inv.request (h : c.Inv shape (some i)) :
    (c.irps i).majorFunction = .read ∧ (c.ccb (c.irps i).pipeEnd).data≠0 :=
  ⟨(h.requests.request _ i (h.head_mem rfl)).2.1,(h.requests.request _ i (h.head_mem rfl)).2.2.2⟩

/-- The requests when the read of the busy thread has got bytes. -/
theorem Requests.deliver (h : c.Requests (some i)) (buffer : Mem) (n : Nat) :
    (c.modifyIrp i fun irp => { irp with buffer, information := n }).Requests (some i) := by
  have hirps : ∀ j, ((c.modifyIrp i fun irp => { irp with buffer, information := n }).irps j =
      { c.irps j with
        buffer := if j=i then buffer else (c.irps j).buffer
        information := if j=i then n else (c.irps j).information }) := by
    intro j
    by_cases hj : j=i
    · rw [hj,modifyIrp_irps_self,if_pos rfl,if_pos rfl]
    · rw [modifyIrp_irps_of_ne _ _ _ hj,if_neg hj,if_neg hj]
  refine h.congr (fun _ => rfl) (fun _ => rfl) hirps fun j hne => ?_
  obtain rfl : j=i := by
    by_contra hji
    exact hne (if_neg hji)
  exact ⟨.inl rfl,(h.request _ j (mem_of_head? (h.serving j rfl))).2.2.1⟩

/-- The busy read takes the first `n` bytes of the buffer. -/
theorem Inv.deliver (h : c.Inv shape (some i)) (hinfo : (c.irps i).information=0) {n : Nat}
    (hn : n≤(c.ccb (c.irps i).pipeEnd).readDataAvailable) {buffer : Mem}
    (hbuffer : stretch buffer 0 n=contents c.mem (c.ccb (c.irps i).pipeEnd).data
      (c.ccb (c.irps i).pipeEnd).maxDataLength (c.ccb (c.irps i).pipeEnd).readPtr n) :
    ((c.modifyCcb (c.irps i).pipeEnd fun ccb => ccb.taken n).modifyIrp i fun irp =>
      { irp with buffer, information := n }).Inv shape (some i) := by
  have hring := h.streams.ring _ h.request.2
  have htotal := hring.total
  have hdata : ∀ r, ((c.modifyCcb (c.irps i).pipeEnd fun ccb => ccb.taken n).ccb r).data =
      (c.ccb r).data := modifyCcb_congr Ccb.data rfl
  have hmax : ∀ r, ((c.modifyCcb (c.irps i).pipeEnd fun ccb => ccb.taken n).ccb r).maxDataLength =
      (c.ccb r).maxDataLength := modifyCcb_congr Ccb.maxDataLength rfl
  refine ⟨⟨fun r => ?_,fun r hr => ?_,fun r => ?_,fun r hr => ?_⟩,?_,fun j hj => ?_⟩
  · rw [modifyIrp_ccb,hdata,hmax]
    exact h.streams.shape r
  · rw [modifyIrp_ccb] at hr ⊢
    rw [hdata] at hr
    by_cases hre : r=(c.irps i).pipeEnd
    · rw [hre,modifyCcb_ccb_self]
      exact hring.taken hn
    · rw [modifyCcb_ccb_of_ne _ _ _ hre]
      exact h.streams.ring r hr
  · rw [modifyIrp_ccb,hdata,hmax,hdata,hmax]
    exact h.streams.apart r
  · rw [modifyIrp_ccb,hdata] at hr
    have hbytes := h.streams.bytes r hr
    simp only [modifyIrp_ccb,modifyIrp_mem,modifyIrp_accepted,modifyIrp_returned,modifyCcb_mem,
      modifyCcb_accepted,modifyCcb_returned,flight,modifyIrp_irps_self,modifyCcb_irps]
    by_cases hre : (c.irps i).pipeEnd=r
    · subst hre
      rw [modifyCcb_ccb_self,hbytes,hbuffer]
      simp only [Ccb.taken,flight,if_pos,hinfo,stretch_zero,append_nil]
      rw [append_assoc,← contents_add c.mem hring.high (by omega),Nat.add_sub_cancel' hn]
    · rw [modifyCcb_ccb_of_ne _ _ _ (Ne.symm hre),hbytes]
      simp only [flight,if_neg hre]
  · exact Requests.deliver (h.requests.modifyCcb rfl rfl) buffer n
  · have hji : j≠i := by
      rintro rfl
      rw [modifyIrp_irps_self] at hj
      exact absurd (h.request.1.symm.trans hj) (by decide)
    rw [modifyIrp_irps_of_ne _ _ _ hji] at hj ⊢
    exact h.writes j hj

theorem Inv.readByteStream (h : c.Inv shape (some i)) (hinfo : (c.irps i).information=0) :
    (c.readByteStream i).Inv shape (some i) := by
  obtain ⟨hccb,hlen,hinfo',hbytes⟩ := readLoop_spec
    (t := { mem := c.mem, ccb := c.ccb (c.irps i).pipeEnd, buffer := (c.irps i).buffer
            length := (c.irps i).length-(c.irps i).information
            information := (c.irps i).information })
    (h.streams.ring _ h.request.2) (Nat.sub_le _ _) rfl
  simp only [hinfo,Nat.zero_add,stretch_zero,nil_append,Nat.sub_zero] at hccb hinfo' hbytes
  have hdeliver := h.deliver hinfo (Nat.min_le_left _ (c.irps i).length) hbytes
  unfold Connection.readByteStream
  simp only [hinfo,Nat.sub_zero,hccb,hinfo']
  split
  · exact (hdeliver.wakeWriter _).modifyCcb rfl rfl
  · exact hdeliver

/-- The bytes of the busy read are returned, and its request is taken off the list. -/
theorem Inv.returnBytes (h : c.Inv shape (some i)) (status : Status) :
    let done := (c.complete i status).removeEntryList i
    Inv { done with
      returned := update done.returned (c.irps i).pipeEnd
        (done.returned (c.irps i).pipeEnd ++
          stretch (c.irps i).buffer 0 (c.irps i).information) } shape none := by
  intro done
  have hdone : (c.complete i status).Inv shape (some i) := h.complete i status
  have hrequests : done.Requests none :=
    hdone.requests.erase (.inr rfl) (by simp [Connection.complete])
  have hstreams : done.Streams shape (c.flight (some i)) := by
    have hs : (c.complete i status).Streams shape (c.flight (some i)) :=
      ⟨h.streams.shape,h.streams.ring,h.streams.apart,h.streams.bytes⟩
    exact hs.modifyCcb rfl
  refine ⟨⟨hstreams.shape,hstreams.ring,hstreams.apart,fun r hr => ?_⟩,
    ⟨hrequests.nodup,hrequests.request,
    hrequests.idle,hrequests.serving,hrequests.fresh,hrequests.queued,hrequests.first,
    hrequests.writer,hrequests.asynchronous⟩,hdone.writes⟩
  refine (hstreams.bytes r hr).trans ?_
  by_cases hre : r=(c.irps i).pipeEnd
  · subst hre
    simp [flight]
  · simp [flight,hre,Ne.symm]

theorem complete_removeEntryList (c : Connection) (i : Nat) (status : Status) :
    (c.removeEntryList i).complete i status=(c.complete i status).removeEntryList i := by
  simp [Connection.complete,removeEntryList,modifyIrp,modifyCcb]

theorem fail_removeEntryList (c : Connection) (i : Nat) (status : Status) :
    (c.removeEntryList i).fail i status=(c.fail i status).removeEntryList i := by
  simp [Connection.fail,Connection.complete,removeEntryList,modifyIrp,modifyCcb]

theorem Inv.endRead (h : c.Inv shape (some i)) (status : Status) :
    ((c.endRead i status).2=none → (c.endRead i status).1.Inv shape none) ∧
      ∀ j, (c.endRead i status).2=some j → (c.endRead i status).1.Inv shape (some j) ∧
        ((c.endRead i status).1.irps j).information=0 := by
  unfold Connection.endRead
  extract_lets irp e c1 c2
  have hdone : c2.Inv shape none := h.returnBytes status
  clear_value c2
  cases hlist : (c2.ccb e).readRequests with
  | nil => exact ⟨fun _ => hdone,by simp⟩
  | cons j l =>
    have hj : j∈(c2.ccb e).readRequests := by simp [hlist]
    have hpipe : (c2.irps j).pipeEnd=e := (hdone.requests.request e j hj).1
    have hhead : (c2.ccb (c2.irps j).pipeEnd).readRequests.head?=some j := by
      rw [hpipe,hlist]
      rfl
    have hmem : j∈(c2.ccb (c2.irps j).pipeEnd).readRequests := mem_of_head? hhead
    dsimp only
    split_ifs
    all_goals dsimp only
    · refine ⟨fun _ => hdone.modifyIrp rfl ⟨fun hs => ?_,fun _ _ => hmem,fun _ => hhead,
        hdone.requests.writer j,hdone.requests.asynchronous j⟩,by simp⟩
      exact absurd hs (hdone.requests.request e j hj).2.2.1
    · exact ⟨fun _ => hdone.modifyCcb rfl rfl,by simp⟩
    · -- The next request has been cancelled: it leaves the list and nobody goes on.
      refine ⟨fun _ => ?_,by simp⟩
      rw [complete_removeEntryList]
      exact (hdone.complete j .cancelled).erase (by simp [Connection.complete])
    · refine ⟨by simp,fun k hk => ?_⟩
      obtain rfl : j=k := by simpa using hk
      exact ⟨hdone.start hhead,hdone.requests.idle e j hj (by simp)⟩

theorem Inv.serveRead {waiter : Nat → Bool} {fuel : Nat} (h : c.Inv shape (some i))
    (hinfo : (c.irps i).information=0) : (serveRead waiter fuel c i).Inv shape none := by
  induction fuel generalizing c i with
  | zero => exact h.stop hinfo
  | succ fuel ih =>
    have hnext : ∀ {d : Connection} {status : Status} {j : Nat}, d.Inv shape (some i) →
        (d.endRead i status).2=some j →
          (Connection.serveRead waiter fuel (d.endRead i status).1 j).Inv shape none := by
      intro d status j hd hj
      obtain ⟨hstart,hzero⟩ := (hd.endRead status).2 j hj
      exact ih hstart hzero
    have hwake := h.wakeWriter (c.irps i).pipeEnd
    have hinfo' : ((c.wakeWriter (c.irps i).pipeEnd).irps i).information=0 := by
      unfold Connection.wakeWriter
      split
      · exact hinfo
      · exact hinfo
    unfold Connection.serveRead
    dsimp only
    split_ifs with hempty hpartial hbroken hsync hthread hcancel
    · split
      · exact (hwake.endRead _).1 ‹_›
      · exact hnext hwake ‹_›
    · split
      · exact (hwake.endRead _).1 ‹_›
      · exact hnext hwake ‹_›
    · exact hwake.leave hinfo' (.inr (.inl rfl)) .pending
    · split
      · exact (hwake.endRead _).1 ‹_›
      · exact hnext hwake ‹_›
    · exact hwake.leave hinfo' (.inl rfl) .cancelled
    · exact hwake.leave hinfo' (.inr (.inr ⟨rfl,by simpa using hsync⟩)) .pending
    · have hread := h.readByteStream hinfo
      split
      · exact (hread.endRead _).1 ‹_›
      · exact hnext hread ‹_›

theorem Inv.serve (h : c.Inv shape (some i)) (hinfo : (c.irps i).information=0)
    (waiter : Nat → Bool) : (serve waiter c i).Inv shape none :=
  h.serveRead hinfo

theorem modifyIrp_modifyIrp (c : Connection) (i : Nat) (g g' : Irp → Irp) :
    (c.modifyIrp i g).modifyIrp i g'=c.modifyIrp i (g' ∘ g) := by
  simp [Connection.modifyIrp]

theorem Inv.fail (h : c.Inv shape none) (hinfo : (c.irps i).information=0) (status : Status) :
    (c.fail i status).Inv shape none := by
  rw [Connection.fail,Connection.complete,modifyIrp_modifyIrp]
  refine h.modifyIrp (by simp [Irp.request,hinfo]) ⟨by simp,?_,?_,?_,?_⟩
  all_goals simp

/-- `Information` is set to 0 where it is 0. -/
theorem modifyIrp_information (hinfo : (c.irps i).information=0) :
    (c.modifyIrp i fun irp => { irp with information := 0 })=c := by
  have hsame : ({ c.irps i with information := 0 } : Irp) =
      { c.irps i with information := (c.irps i).information } := by
    rw [hinfo]
  have hupdate : update c.irps i { c.irps i with information := 0 }=c.irps := by
    rw [hsame]
    exact update_eq_self i c.irps
  exact congrArg (fun irps => { c with irps }) hupdate

section
variable (h : c.Inv shape none) (hread : (c.irps i).majorFunction = .read)
  (hs : (c.irps i).status≠none)
include h hread hs

theorem Inv.append (hdata : (c.ccb (c.irps i).pipeEnd).data≠0)
    (hnot : i∉(c.ccb (c.irps i).pipeEnd).readRequests) (hinfo : (c.irps i).information=0) :
    (c.insertTailList i).Inv shape none :=
  ⟨h.streams.modifyCcb rfl,h.requests.append hread hs hdata hnot hinfo (.inl rfl),h.writes⟩

theorem Inv.npfsRead (hinfo : (c.irps i).information=0)
    (hevent : (c.irps i).synchronous=true → (c.irps i).event=false)
    (hin : i∈(c.ccb (c.irps i).pipeEnd).readRequests →
      (c.ccb (c.irps i).pipeEnd).readRequests.head?=some i ∧ (c.irps i).synchronous=false)
    (waiter : Nat → Bool) : (c.npfsRead waiter i).Inv shape none := by
  have hinfo' : ((c.insertTailList i).irps i).information=0 := hinfo
  have hlater : (c.ccb (c.irps i).pipeEnd).readRequests.head?≠some i →
      i∉(c.ccb (c.irps i).pipeEnd).readRequests := fun hfirst hi => hfirst (hin hi).1
  have hsyncs : (c.irps i).synchronous=true → i∉(c.ccb (c.irps i).pipeEnd).readRequests := by
    intro hsync hi
    simp [(hin hi).2] at hsync
  unfold Connection.npfsRead
  simp only [modifyIrp_information hinfo,modifyIrp_information hinfo']
  split_ifs with hdis hno hdata hsync hhead hfirst hhead hcancel
  · exact h.fail hinfo _
  · exact h.fail hinfo _
  · exact h.fail hinfo _
  · exact ((h.append hread hs hdata (hsyncs hsync) hinfo).start hhead).serve hinfo waiter
  · refine (h.append hread hs hdata (hsyncs hsync) hinfo).modifyIrp rfl
      ⟨by simp,fun _ _ => by simp [insertTailList],?_,by simp,by simp⟩
    simp [insertTailList,hevent hsync]
  · exact (h.start hfirst).serve hinfo waiter
  · exact ((h.append hread hs hdata (hlater hfirst) hinfo).start hhead).serve hinfo waiter
  · rw [complete_removeEntryList]
    exact ((h.append hread hs hdata (hlater hfirst) hinfo).complete i .cancelled).erase
      (by simp [Connection.complete])
  · refine (h.append hread hs hdata (hlater hfirst) hinfo).modifyIrp rfl
      ⟨by simp,fun _ _ => by simp [insertTailList],?_,by simp,by simp⟩
    simp

end

def accept (c : Connection) (i n : Nat) (mem : Mem) : Connection :=
  let irp := c.irps i
  let r := irp.pipeEnd.other
  ({ c with
    mem
    accepted := update c.accepted r
      (c.accepted r++(stretch irp.buffer irp.information n).map fun b => (i, b)) }.modifyCcb r
        fun ccb => ccb.added n).modifyIrp i fun irp => { irp with information := irp.information+n }

section
variable (c : Connection)

theorem accept_irps_self (i n : Nat) (mem : Mem) : (c.accept i n mem).irps i =
    { c.irps i with information := (c.irps i).information+n } := by
  rw [accept,modifyIrp_irps_self]
  rfl

theorem accept_irps_of_ne (n : Nat) (mem : Mem) (h : j≠i) : (c.accept i n mem).irps j=c.irps j := by
  rw [accept,modifyIrp_irps_of_ne _ _ _ h]
  rfl

theorem accept_ccb_self (i n : Nat) (mem : Mem) :
    (c.accept i n mem).ccb (c.irps i).pipeEnd.other =
      (c.ccb (c.irps i).pipeEnd.other).added n := by
  rw [accept,modifyIrp_ccb,modifyCcb_ccb_self]

theorem accept_ccb_of_ne (n : Nat) (mem : Mem) (h : r≠(c.irps i).pipeEnd.other) :
    (c.accept i n mem).ccb r=c.ccb r := by
  rw [accept,modifyIrp_ccb,modifyCcb_ccb_of_ne _ _ _ h]

theorem accept_data (i n : Nat) (mem : Mem) (r : PipeEnd) :
    ((c.accept i n mem).ccb r).data=(c.ccb r).data := by
  rw [accept,modifyIrp_ccb]
  exact modifyCcb_congr Ccb.data rfl r

theorem accept_accepted (i n : Nat) (mem : Mem) :
    (c.accept i n mem).accepted=update c.accepted (c.irps i).pipeEnd.other
      (c.accepted (c.irps i).pipeEnd.other ++
        (stretch (c.irps i).buffer (c.irps i).information n).map fun b => (i, b)) := rfl

end

variable {n : Nat} {mem : Mem}

theorem Requests.accept (h : c.Requests none)
    (hwrite : (c.irps i).majorFunction = .write) (hs : (c.irps i).status≠none) :
    (c.accept i n mem).Requests none := by
  have hirps : ∀ j, (c.accept i n mem).irps j={ c.irps j with
      information := if j=i then (c.irps j).information+n else (c.irps j).information } := by
    intro j
    by_cases hj : j=i
    · rw [hj,if_pos rfl,accept_irps_self]
    · rw [if_neg hj,accept_irps_of_ne c n mem hj]
  have hlist : ∀ r, ((c.accept i n mem).ccb r).readRequests=(c.ccb r).readRequests := fun r => by
    rw [Connection.accept,modifyIrp_ccb]
    exact modifyCcb_congr Ccb.readRequests rfl r
  refine h.congr (accept_data c i n mem) hlist hirps fun j hne => ?_
  obtain rfl : j=i := by
    by_contra hji
    exact hne (if_neg hji)
  exact ⟨.inr hwrite,hs⟩

theorem Writes.accept (h : c.Writes) (hwrite : (c.irps i).majorFunction = .write) :
    (c.accept i n mem).Writes := by
  intro j hj
  by_cases hji : j=i
  · subst hji
    rw [accept_irps_self,accept_accepted]
    rw [update_self,filter_append,map_append,h j hwrite,stretch_add]
    simp [filter_map,comp_def]
  · rw [accept_irps_of_ne c n mem hji] at hj ⊢
    rw [accept_accepted]
    by_cases hr : (c.irps j).pipeEnd.other=(c.irps i).pipeEnd.other
    · rw [hr,update_self,filter_append,map_append,← hr,h j hj]
      simp [filter_map,comp_def,Ne.symm hji]
    · rw [update_of_ne hr]
      exact h j hj

section
variable (hdata : (c.ccb (c.irps i).pipeEnd.other).data≠0)
  (hn : n≤(c.ccb (c.irps i).pipeEnd.other).writeQuotaAvailable)
  (hstored : Stored c.mem mem (c.ccb (c.irps i).pipeEnd.other).data
    (c.ccb (c.irps i).pipeEnd.other).maxDataLength (c.ccb (c.irps i).pipeEnd.other).writePtr
    (c.irps i).buffer (c.irps i).information n)
include hdata hn hstored

/-- Bytes stored in one buffer leave the contents of the other one. -/
theorem Streams.accept (h : c.Streams shape (c.flight none)) :
    (c.accept i n mem).Streams shape ((c.accept i n mem).flight none) := by
  have hring := h.ring _ hdata
  have htotal := hring.total
  have hdata' := accept_data c i n mem
  have hmax : ∀ r, ((c.accept i n mem).ccb r).maxDataLength=(c.ccb r).maxDataLength := fun r => by
    rw [Connection.accept,modifyIrp_ccb]
    exact modifyCcb_congr Ccb.maxDataLength rfl r
  refine ⟨fun r => ?_,fun r hr => ?_,fun r => ?_,fun r hr => ?_⟩
  · rw [hdata',hmax]
    exact h.shape r
  · rw [hdata'] at hr
    by_cases hre : r=(c.irps i).pipeEnd.other
    · rw [hre,accept_ccb_self]
      exact hring.added hn
    · rw [accept_ccb_of_ne c n mem hre]
      exact h.ring r hr
  · rw [hdata',hmax,hdata',hmax]
    exact h.apart r
  · rw [hdata'] at hr
    have hbytes := h.bytes r hr
    rw [accept_accepted]
    by_cases hre : r=(c.irps i).pipeEnd.other
    · subst hre
      rw [update_self,map_append,hbytes,append_assoc,accept_ccb_self]
      have hcontents := hring.contents_added hn hstored
      simp only [Ccb.added,map_map,comp_def,map_id']
      exact congrArg _ hcontents.symm
    · have hother : (c.irps i).pipeEnd.other=r.other := by
        obtain he | he := PipeEnd.eq_or_other (c.irps i).pipeEnd r
        · rw [he]
        · rw [he,PipeEnd.other_other] at hre
          exact absurd rfl hre
      rw [update_of_ne hre,hbytes,accept_ccb_of_ne c n mem hre]
      have hring' := h.ring r hr
      have htotal' := hring'.total
      rw [hother] at hdata hstored hring htotal hn
      have hle : (c.ccb r).readDataAvailable≤(c.ccb r).maxDataLength := by omega
      have hcontents := contents_congr hring'.low hring'.high hle fun a ha ha' =>
        hstored.outside a fun k hk => by
          have hcell := cell_mem hring.writePtr_mem.1 hring.writePtr_mem.2 (k := k) (by omega)
          have hapart := h.apart r hr hdata
          omega
      exact congrArg _ hcontents.symm

theorem Inv.accept (h : c.Inv shape none) (hwrite : (c.irps i).majorFunction = .write)
    (hs : (c.irps i).status≠none) : (c.accept i n mem).Inv shape none :=
  ⟨h.streams.accept hdata hn hstored,h.requests.accept hwrite hs,h.writes.accept hwrite⟩

end

section

variable (h : c.Inv shape none)
include h

section
variable (hwrite : (c.irps i).majorFunction = .write)
include hwrite

theorem Inv.writeWait (hdata : (c.ccb (c.irps i).pipeEnd.other).data≠0) :
    (c.writeWait i).Inv shape none := by
  unfold Connection.writeWait
  dsimp only
  split_ifs
  · exact h.complete i .pipeBroken
  · refine (h.modifyCcb (f := fun ccb => { ccb with readEvent := true }) rfl rfl).modifyIrp rfl
      ⟨by simp,by simp,by simp,fun _ => ⟨hwrite,?_⟩,by simp⟩
    rw [modifyCcb_irps,modifyCcb_ccb_self]
    exact hdata

theorem Inv.writeByteStream
    (hs : (c.irps i).status≠none) (hdata : (c.ccb (c.irps i).pipeEnd.other).data≠0) :
    (c.writeByteStream i).Inv shape none := by
  obtain ⟨hccb,hlen,hinfo,hstored⟩ := writeLoop_spec
    (t := { mem := c.mem, ccb := c.ccb (c.irps i).pipeEnd.other, buffer := (c.irps i).buffer
            length := (c.irps i).length-(c.irps i).information
            information := (c.irps i).information })
    (h.streams.ring _ hdata) (Nat.sub_le _ _) rfl
  have haccept := h.accept hdata (Nat.min_le_right _ _) hstored hwrite hs
  unfold Connection.writeByteStream
  simp only [hccb,hinfo,Nat.add_sub_cancel_left]
  split_ifs
  · exact ((haccept.modifyCcb (f := fun ccb => { ccb with readEvent := true }) rfl rfl).modifyCcb
      (f := fun ccb => { ccb with writeEvent := false }) rfl rfl).complete i .success
  · refine haccept.writeWait ?_ ?_
    · rw [accept_irps_self]
      exact hwrite
    · rw [accept_irps_self,accept_ccb_self]
      exact hdata

theorem Inv.npfsWrite (hs : (c.irps i).status≠none) (hinfo : (c.irps i).information=0) :
    (c.npfsWrite i).Inv shape none := by
  unfold Connection.npfsWrite
  dsimp only
  split_ifs with hconnected hdata hquota
  · exact h.fail hinfo _
  · exact h.fail hinfo _
  · exact h.writeWait hwrite hdata
  · exact h.writeByteStream hwrite hs hdata

end

theorem Inv.resumeWrite (hw : (c.irps i).wait = .writeEvent) :
    (c.resumeWrite i).Inv shape none := by
  obtain ⟨hwrite,hdata⟩ := h.requests.writer i hw
  have hs : (c.irps i).status≠none := by
    intro hs
    have hfresh := (h.requests.fresh i hs).1
    simp [hw] at hfresh
  unfold Connection.resumeWrite
  dsimp only
  split_ifs
  · exact h.complete i .pipeBroken
  · exact h.complete i .pipeBroken
  · exact h.writeByteStream hwrite hs hdata

theorem Inv.wake (waiter : Nat → Bool) (i : Nat) : (c.wake waiter i).Inv shape none := by
  have hr := h.requests
  have hinfo : (c.ccb (c.irps i).pipeEnd).readRequests.head?=some i →
      (c.irps i).information=0 := fun hhead => hr.idle _ i (mem_of_head? hhead) (by simp)
  unfold Connection.wake
  dsimp only
  cases hw : (c.irps i).wait with
  | nothing => exact h
  | queue => exact h
  | turn =>
    dsimp only
    split_ifs with hevent
    · have hhead := hr.first i (.inr (.inr ⟨hw,hevent⟩))
      have hreset : (c.modifyIrp i fun irp => { irp with event := false, information := 0 }).Inv
        shape none := by
        refine h.modifyIrp (by simp [Irp.request,hinfo hhead]) ⟨fun hs => ?_,hr.queued i,?_,?_,?_⟩
        · exact absurd hs (hr.request _ i (mem_of_head? hhead)).2.2.1
        all_goals simp [hw]
      have hpipe : ((c.modifyIrp i fun irp => { irp with event := false, information := 0 }).irps
          i).pipeEnd=(c.irps i).pipeEnd := by simp
      refine (hreset.start ?_).serve (by simp) waiter
      rw [hpipe]
      exact hhead
    · exact h
  | readEvent =>
    dsimp only
    split_ifs
    · have hhead := hr.first i (.inl hw)
      obtain ⟨hnone,hsome⟩ := ((h.start hhead).readByteStream (hinfo hhead)).endRead .success
      generalize (c.readByteStream i).endRead i .success=r at hnone hsome
      obtain ⟨d,next⟩ := r
      cases next with
      | none => exact hnone rfl
      | some j => exact (hsome j rfl).1.serve (hsome j rfl).2 waiter
    · exact h
  | waiterThread =>
    dsimp only
    split_ifs
    · have hhead := hr.first i (.inr (.inl hw))
      have hasync := hr.asynchronous i hw
      obtain ⟨-,hread,hs,-⟩ := hr.request _ i (mem_of_head? hhead)
      exact h.npfsRead hread hs (hinfo hhead) (by simp [hasync]) (fun _ => ⟨hhead,hasync⟩) waiter
    · exact h
  | writeEvent => exact h.resumeWrite hw

theorem Inv.alert (i : Nat) : (c.alert i).Inv shape none := by
  unfold Connection.alert
  cases (c.irps i).wait with
  | turn | readEvent | writeEvent => exact h.complete i .cancelled
  | nothing | waiterThread | queue => exact h

theorem Inv.cancel (i : Nat) : (c.cancel i).Inv shape none := by
  have hr := h.requests
  have hflag : (c.modifyIrp i fun irp => { irp with cancel := true }).Inv shape none :=
    h.modifyIrp rfl ⟨fun hs => ⟨hs,(hr.fresh i hs).1,(hr.fresh i hs).2.1⟩,hr.queued i,hr.first i,
      hr.writer i,hr.asynchronous i⟩
  have hremove : (c.irps i).wait = .waiterThread ∨ (c.irps i).wait = .queue →
      (((c.modifyIrp i fun irp => { irp with cancel := true }).removeEntryList i).fail i
        .cancelled).Inv shape none := by
    intro hw
    have hmem : i∈(c.ccb (c.irps i).pipeEnd).readRequests := by
      refine hr.queued i ?_ ?_
      all_goals
        intro hw'
        simp [hw'] at hw
    have hinfo : ((c.modifyIrp i fun irp => { irp with cancel := true }).irps i).information=0 := by
      rw [modifyIrp_irps_self]
      exact hr.idle _ i hmem (by simp)
    rw [fail_removeEntryList]
    exact (hflag.fail hinfo .cancelled).erase (by simp [Connection.fail,Connection.complete])
  unfold Connection.cancel
  dsimp only
  cases hw : (c.irps i).wait with
  | turn | readEvent | writeEvent | nothing => exact hflag
  | waiterThread | queue => exact hremove (by simp [hw])

theorem Inv.step (a : Action) : (c.step a).Inv shape none := by
  cases a with
  | wake i waiter => exact h.wake waiter i
  | alert i => exact h.alert i
  | cancel i => exact h.cancel i
  | call i waiter =>
    unfold Connection.step
    dsimp only
    split_ifs with hs
    · obtain ⟨hw,hevent,hinfo⟩ := h.requests.fresh i hs
      have hsent : (c.modifyIrp i fun irp => { irp with status := some .pending }).Inv shape
        none := by
        refine h.modifyIrp rfl ⟨by simp,?_,?_,?_,?_⟩
        all_goals simp [hw]
      have hnot : i∉(c.ccb (c.irps i).pipeEnd).readRequests :=
        fun hi => (h.requests.request _ i hi).2.2.1 hs
      rw [modifyIrp_irps_self]
      cases hmajor : (c.irps i).majorFunction with
      | read =>
        refine hsent.npfsRead ?_ ?_ ?_ ?_ ?_ waiter
        all_goals simp [hmajor,hinfo,hevent,hnot]
      | write =>
        refine hsent.npfsWrite ?_ ?_ ?_
        all_goals simp [hmajor,hinfo]
    · exact h

theorem Inv.run (actions : List Action) : (c.run actions).Inv shape none := by
  induction actions generalizing c with
  | nil => exact h
  | cons a actions ih => exact ih (h.step a)

end

theorem Created.inv (h : c.Created) :
    c.Inv (fun e => ((c.ccb e).data, (c.ccb e).maxDataLength)) none := by
  have hnil : ∀ e, (c.ccb e).readRequests=[] := fun e => (h.ccb e).readRequests
  refine ⟨⟨fun _ => rfl,fun e he => ?_,h.apart,fun e _ => ?_⟩,?_,fun i _ => ?_⟩
  · obtain ⟨hr,hw,ha,hq,-,hsize⟩ := h.ccb e
    obtain ⟨hpos,hfits⟩ := hsize he
    have hhigh : (c.ccb e).data<(c.ccb e).data+(c.ccb e).maxDataLength := by omega
    refine ⟨hr.ge,by omega,by omega,?_,hfits⟩
    rw [hw,ha,hr,cell_zero hhigh]
  · rw [h.accepted,h.returned,(h.ccb e).readDataAvailable]
    rfl
  · have hw : ∀ i, (c.irps i).wait = .nothing := fun i => (h.irps i).2.1
    refine ⟨fun e => ?_,fun e i hi => ?_,fun e i hi => ?_,by simp,fun i _ => (h.irps i).2,?_,?_,
      ?_,?_⟩
    · rw [hnil]
      exact nodup_nil
    · simp [hnil] at hi
    · simp [hnil] at hi
    all_goals simp [hw]
  · rw [h.accepted,(h.irps i).2.2.2]
    rfl

/-- Each direction of a byte-stream connection is a queue of bytes, in every run of reads and
writes: the bytes returned to the reads of an end are the first of the bytes accepted from the
writes for it, and the others are found in its buffer. The bytes accepted from one write are the
first `Information` bytes of its data. -/
theorem byteStream_fifo (h : c.Created) (actions : List Action) (e : PipeEnd)
    (hdata : (c.ccb e).data≠0) :
    let s := c.run actions
    let ccb := s.ccb e
    let accepted := (s.accepted e).map Prod.snd
    (ccb.data=(c.ccb e).data ∧ ccb.maxDataLength=(c.ccb e).maxDataLength) ∧
      s.returned e <+: accepted ∧
      ccb.readDataAvailable+ccb.writeQuotaAvailable=ccb.maxDataLength ∧
      accepted.drop (s.returned e).length =
        contents s.mem ccb.data ccb.maxDataLength ccb.readPtr ccb.readDataAvailable ∧
      (ccb.data≤ccb.readPtr ∧ ccb.readPtr<ccb.data+ccb.maxDataLength) ∧
      (ccb.data≤ccb.writePtr ∧ ccb.writePtr<ccb.data+ccb.maxDataLength) ∧
      ∀ i, (s.irps i).majorFunction = .write → (s.irps i).pipeEnd.other=e →
        ((s.accepted e).filter (·.1=i)).map Prod.snd =
          stretch (s.irps i).buffer 0 (s.irps i).information := by
  intro s ccb accepted
  have hinv := h.inv.run actions
  have hshape := hinv.streams.shape e
  simp only [Prod.mk.injEq] at hshape
  have hdata' : ccb.data≠0 := fun hzero => hdata (hshape.1.symm.trans hzero)
  have hring := hinv.streams.ring e hdata'
  have hbytes : accepted=s.returned e++contents s.mem ccb.data ccb.maxDataLength ccb.readPtr
      ccb.readDataAvailable := by
    have hbytes := hinv.streams.bytes e hdata'
    simpa only [flight,append_nil] using hbytes
  refine ⟨hshape,⟨_,hbytes.symm⟩,hring.total,?_,⟨hring.low,hring.high⟩,hring.writePtr_mem,
    fun i hi he => ?_⟩
  · rw [hbytes,drop_left]
  · rw [← he]
    exact hinv.writes i hi

def newPipe : Connection where
  mem _ := 0
  ccb e :=
    let data := match e with
      | .client => 0xE1000000
      | .server => 0xE1001000
    { data, maxDataLength := 4096, readPtr := data, writePtr := data, readDataAvailable := 0
      writeQuotaAvailable := 4096, pipeState := .connected, otherSide := true
      readMode := .byteStream, readEvent := false, writeEvent := false, readRequests := [] }
  irps i :=
    if i=0 then
      { majorFunction := .write, pipeEnd := .client, synchronous := true, cancel := false,
        length := 3
        buffer := fun k => BitVec.ofNat 8 (k+1), information := 0, status := none, wait := .nothing
        event := false }
    else
      { majorFunction := .read, pipeEnd := .server, synchronous := true, cancel := false,
        length := 2
        buffer := fun _ => 0, information := 0, status := none, wait := .nothing, event := false }
  returned _ := []
  accepted _ := []

theorem newPipe_created : newPipe.Created := by
  refine ⟨fun e => ?_,fun e _ _ => ?_,fun i => ?_,fun _ => rfl,fun _ => rfl⟩
  · cases e
    all_goals exact ⟨rfl,rfl,rfl,rfl,rfl,fun _ => by decide⟩
  · cases e
    all_goals decide
  · unfold newPipe
    dsimp only
    split
    all_goals exact ⟨rfl,rfl,rfl,rfl⟩

def newPipeActions : List Action :=
  [.call 1 fun _ => true,.call 0 fun _ => true,.wake 1 fun _ => true,.call 2 fun _ => true]

theorem byteStream_fifo_newPipe :
    (newPipe.run newPipeActions).returned .server=[1,2,3] ∧
      (newPipe.run newPipeActions).returned .server <+:
        ((newPipe.run newPipeActions).accepted .server).map Prod.snd := by
  have hdata : (newPipe.ccb .server).data≠0 := by decide
  exact ⟨by decide +kernel,(byteStream_fifo newPipe_created newPipeActions .server hdata).2.1⟩

end Connection

end Odyssey.Npfs
