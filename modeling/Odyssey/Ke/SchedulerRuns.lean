import Odyssey.Ke.Scheduler

/-! The ready lists, over all sequences of scheduler steps. -/
namespace Odyssey.Ke
open ListEntry Function List KThread

variable {x : KThreadState}

def maximumPriority : Nat := 32

section Queues
variable {τ : Type*} {links : Links (ReadyLink τ)} {summary : Nat} {ready : Nat → List τ} {t : τ}
  {p : Nat}

structure Queues (links : Links (ReadyLink τ)) (summary : Nat) (ready : Nat → List τ) : Prop where
  list : ∀ p, p< maximumPriority → IsList links (.head p) ((ready p).map .thread)
  bit : ∀ p, summary.testBit p ↔ ready p≠[]
  unique : ∀ p q t, t∈ready p → t∈ready q → p=q
  bound : ∀ p, maximumPriority≤p → ready p=[]

theorem Queues.not_mem (h : Queues links summary ready) {q : Nat} (hpq : p≠q) :
    ∀ x∈ReadyLink.head p::(ready p).map ReadyLink.thread,
      x∉ReadyLink.head q::(ready q).map ReadyLink.thread := by
  intro x hx hxq
  obtain rfl | hx := mem_cons.mp hx
  · simp [hpq] at hxq
  · obtain ⟨t,ht,rfl⟩ := mem_map.mp hx
    have htq : t∈ready q := by simpa using hxq
    exact hpq (h.unique p q t ht htq)

/-- The first thread of the highest list that is not empty. -/
theorem Queues.highest (h : Queues links summary ready) (p : Nat) :
    (summary >>> p=0 ∧ ∀ q, p≤q → ready q=[]) ∨
      (summary >>> p≠0 ∧ ∃ t, t∈ready ((summary >>> p).log2+p) ∧
        links.flink (.head ((summary >>> p).log2+p)) = .thread t) := by
  by_cases hz : summary >>> p=0
  · refine .inl ⟨hz,fun q hq => ?_⟩
    by_contra hne
    have hbit := (h.bit q).mpr hne
    have hzero : (summary >>> p).testBit (q-p)=false := by rw [hz]; simp
    rw [Nat.testBit_shiftRight,Nat.add_sub_cancel' hq,hbit] at hzero
    exact Bool.noConfusion hzero
  · refine .inr ⟨hz,?_⟩
    have hbit := Nat.testBit_log2 hz
    rw [Nat.testBit_shiftRight,Nat.add_comm] at hbit
    obtain ⟨q,hq⟩ : ∃ q, q=(summary >>> p).log2+p := ⟨_,rfl⟩
    rw [← hq] at hbit ⊢
    have hne := (h.bit q).mp hbit
    have hlt : q< maximumPriority := by
      by_contra hlt
      exact hne (h.bound q (by omega))
    obtain ⟨t,l,hl⟩ := exists_cons_of_ne_nil hne
    obtain ⟨Q,hQ⟩ := (h.list q hlt).flink_head
    rw [hl,map_cons] at hQ
    exact ⟨t,by rw [hl]; simp,(List.cons.inj hQ).1.symm⟩

variable [DecidableEq τ]

theorem Queues.insert (h : Queues links summary ready) (hp : p< maximumPriority)
    (ht : ∀ q, t∉ready q) (atHead : Bool) :
    ∃ ready', Queues (if atHead then links.insertHeadList (.head p) (.thread t)
        else links.insertTailList (.head p) (.thread t)) (summary ||| priorityMask p) ready' ∧
      ∀ q u, u∈ready' q ↔ u∈ready q ∨ (q=p ∧ u=t) := by
  have hnot : ∀ q, ReadyLink.thread t∉ReadyLink.head q::(ready q).map ReadyLink.thread := by
    intro q hq
    exact ht q (by simpa using hq)
  have hmem : ∀ q u, u∈update ready p
      (if atHead then t::ready p else ready p++[t]) q ↔ u∈ready q ∨ (q=p ∧ u=t) := by
    intro q u
    by_cases hq : q=p
    · subst hq
      cases atHead with
      | false => simp
      | true => simp [or_comm]
    · simp [hq]
  refine ⟨_,⟨fun q hq => ?_,fun q => ?_,fun q r u huq hur => ?_,fun q hq => ?_⟩,hmem⟩
  · by_cases hqp : q=p
    · subst hqp
      rw [update_self]
      cases atHead with
      | false =>
        simp only [Bool.false_eq_true,if_false,map_append]
        exact (h.list q hq).insertTail (hnot q)
      | true =>
        exact (h.list q hq).insertHead (hnot q)
    · rw [update_of_ne hqp]
      cases atHead with
      | false =>
        exact (h.list q hq).insertTail_other (h.list p hp) (hnot q) (h.not_mem (Ne.symm hqp))
      | true =>
        exact (h.list q hq).insertHead_other (h.list p hp) (hnot q) (h.not_mem (Ne.symm hqp))
  · rw [Nat.testBit_or,priorityMask]
    by_cases hqp : q=p
    · subst hqp
      cases atHead with
      | false => simp
      | true => simp
    · rw [update_of_ne hqp]
      simpa [Ne.symm hqp] using h.bit q
  · obtain hq | ⟨hq,hut⟩ := (hmem q u).mp huq
    · obtain hr | ⟨-,hut⟩ := (hmem r u).mp hur
      · exact h.unique q r u hq hr
      · exact absurd (hut ▸ hq) (ht q)
    · obtain hr | ⟨hr,-⟩ := (hmem r u).mp hur
      · exact absurd (hut ▸ hr) (ht r)
      · exact hq.trans hr.symm
  · have hqp : q≠p := by omega
    rw [update_of_ne hqp]
    exact h.bound q hq

theorem Queues.remove (h : Queues links summary ready) (ht : t∈ready p) :
    ∃ ready', Queues (links.removeEntryList (.thread t))
        (if links.isOnlyEntry (.thread t) then summary ^^^ priorityMask p else summary) ready' ∧
      ∀ q u, u∈ready' q ↔ u∈ready q ∧ u≠t := by
  have hp : p< maximumPriority := by
    by_contra hp
    rw [h.bound p (by omega)] at ht
    simp at ht
  obtain ⟨A,B,hAB⟩ := append_of_mem ht
  have hlist := h.list p hp
  rw [hAB,map_append] at hlist
  have hself : t∉A++B := by
    intro hmem
    refine (nodup_cons.mp (nodup_middle.mp (nodup_cons.mp hlist.nodup).2)).1 ?_
    rw [← map_append]
    exact mem_map_of_mem hmem
  have hmem : ∀ q u, u∈update ready p (A++B) q ↔ u∈ready q ∧ u≠t := by
    intro q u
    by_cases hq : q=p
    · subst hq
      rw [update_self,hAB]
      constructor
      · intro hu
        refine ⟨?_,fun hut => hself (hut ▸ hu)⟩
        simpa using Or.imp_right Or.inr (mem_append.mp hu)
      · rintro ⟨hu,hut⟩
        simpa [hut] using hu
    · rw [update_of_ne hq]
      exact ⟨fun hu => ⟨hu,fun hut => hq (h.unique q p t (hut ▸ hu) ht)⟩,And.left⟩
  refine ⟨_,⟨fun q hq => ?_,fun q => ?_,fun q r u huq hur => ?_,fun q hq => ?_⟩,hmem⟩
  · by_cases hqp : q=p
    · subst hqp
      rw [update_self,map_append]
      exact hlist.remove
    · rw [update_of_ne hqp]
      refine (h.list q hq).remove_other hlist fun x hx => h.not_mem (Ne.symm hqp) x ?_
      rw [hAB,map_append]
      simp only [mem_cons,mem_append] at hx ⊢
      tauto
  · have honly := hlist.isOnlyEntry_iff
    rw [← map_append,map_eq_nil_iff] at honly
    by_cases hqp : q=p
    · subst hqp
      have hbit : summary.testBit q := (h.bit q).mpr (ne_nil_of_mem ht)
      rw [update_self]
      split
      · next hc => simp [Nat.testBit_xor,priorityMask,hbit,honly.mp hc]
      · next hc => simp only [hbit,true_iff]; exact fun hnil => hc (honly.mpr hnil)
    · rw [update_of_ne hqp,← h.bit]
      split
      · simp [Nat.testBit_xor,priorityMask,Ne.symm hqp]
      · rfl
  · exact h.unique q r u ((hmem q u).mp huq).1 ((hmem r u).mp hur).1
  · have hqp : q≠p := by omega
    rw [update_of_ne hqp]
    exact h.bound q hq

end Queues

def KThreadState.active : KThreadState → Bool
  | .ready | .running | .standby | .deferredReady => true
  | _ => false

namespace Prcb
variable {τ : Type*} {s s' s'' : Prcb τ}

def states (s : Prcb τ) (t : τ) : KThreadState := (s.threads t).state

structure Step (s s' : Prcb τ) : Prop where
  keeps : ∀ t, (s.threads t).Keeps (s'.threads t)
  active : ∀ t, (s.states t).active → (s'.states t).active
  idle : s'.idleThread=s.idleThread

theorem Step.refl (s : Prcb τ) : Step s s := ⟨fun _ => .refl _,fun _ => id,rfl⟩

theorem Step.trans (h : Step s s') (h' : Step s' s'') : Step s s'' :=
  ⟨fun t => (h.keeps t).trans (h'.keeps t),fun t ht => h'.active t (h.active t ht),
    h'.idle.trans h.idle⟩

theorem Step.congr (h : Step s s') (ht : s''.threads=s'.threads)
    (hi : s''.idleThread=s'.idleThread) : Step s s'' :=
  ⟨fun t => by rw [ht]; exact h.keeps t,fun t hta => by simpa only [states,ht] using h.active t hta,
    hi.trans h.idle⟩

/-- The threads in state `Ready` are on the list of their priority, apart from those of `limbo`. -/
structure Listed (s : Prcb τ) (ready : Nat → List τ) (limbo : τ → Prop) : Prop where
  queues : Queues s.links s.readySummary ready
  mem : ∀ p t, t∈ready p ↔ s.states t = .ready ∧ (s.threads t).priority=p ∧ ¬limbo t
  valid : ∀ t, (s.threads t).Valid

section Listed
variable {ready : Nat → List τ} {limbo limbo' : τ → Prop} {t : τ} {p : Nat}

theorem Listed.congr (h : Listed s ready limbo) (ht : s'.threads=s.threads)
    (hl : s'.links=s.links) (hr : s'.readySummary=s.readySummary)
    (hlimbo : ∀ u, limbo' u ↔ limbo u) : Listed s' ready limbo' := by
  refine ⟨?_,fun p u => ?_,fun u => ?_⟩
  · rw [hl,hr]
    exact h.queues
  · rw [states,ht,hlimbo]
    exact h.mem p u
  · rw [ht]
    exact h.valid u

/-- A thread in state `Ready` that is on no list is in limbo. -/
theorem Listed.mem_limbo (h : Listed s ready limbo) (ht : ∀ p, t∉ready p)
    (hready : s.states t = .ready) : limbo t := by
  by_contra hno
  have hp := (h.valid t).priority_nonneg
  exact ht (s.threads t).priority.toNat ((h.mem _ t).mpr ⟨hready,by omega,hno⟩)

theorem Listed.not_mem_of_state (h : Listed s ready limbo) (ht : s.states t ≠ .ready) :
    ∀ p, t∉ready p := fun p hp => ht ((h.mem p t).mp hp).1

theorem setNext_threads (s : Prcb τ) (next : Option τ) : (s.setNext next).threads=s.threads := rfl

variable [DecidableEq τ]

theorem modify_threads (s : Prcb τ) (t : τ) (f : KThread → KThread) (u : τ) :
    (s.modify t f).threads u=if u=t then f (s.threads t) else s.threads u := by
  by_cases hu : u=t
  · subst hu
    simp [modify]
  · simp [modify,hu]

theorem modify_states (s : Prcb τ) (t : τ) (f : KThread → KThread) (u : τ) :
    (s.modify t f).states u=if u=t then (f (s.threads t)).state else s.states u := by
  rw [states,modify_threads]
  split
  · rfl
  · rfl

variable {f : KThread → KThread}

section

variable (h : Listed s ready limbo)
include h

/-- A thread that is on no list is changed, but not its state. -/
theorem Listed.modify (ht : ∀ p, t∉ready p) (hv : (f (s.threads t)).Valid)
    (hs : (f (s.threads t)).state=(s.threads t).state) :
    Listed (s.modify t f) ready limbo := by
  refine ⟨h.queues,fun p u => ?_,fun u => ?_⟩
  · rw [modify_states,modify_threads]
    by_cases hu : u=t
    · subst hu
      rw [if_pos rfl,hs]
      exact ⟨fun hp => absurd hp (ht p),fun hc => absurd (h.mem_limbo ht hc.1) hc.2.2⟩
    · rw [if_neg hu,if_neg hu]
      exact h.mem p u
  · rw [modify_threads]
    split
    · exact hv
    · exact h.valid u

theorem Listed.touch (hv : (f (s.threads t)).Valid)
    (hs : (f (s.threads t)).state=(s.threads t).state)
    (hp : (f (s.threads t)).priority=(s.threads t).priority) :
    Listed (s.modify t f) ready limbo := by
  refine ⟨h.queues,fun p u => ?_,fun u => ?_⟩
  · rw [modify_states,modify_threads,h.mem]
    split
    · next hu => rw [hu,hs,hp]; rfl
    · rfl
  · rw [modify_threads]
    split
    · exact hv
    · exact h.valid u

/-- A thread that is on no list gets another state. -/
theorem Listed.setState (ht : ∀ p, t∉ready p) (x : KThreadState) :
    Listed (s.modify t (·.setState x)) ready fun u => (limbo u ∧ u≠t) ∨ (u=t ∧ x = .ready) := by
  refine ⟨h.queues,fun p u => ?_,fun u => ?_⟩
  · rw [modify_states,modify_threads]
    by_cases hu : u=t
    · subst hu
      rw [if_pos rfl]
      refine ⟨fun hp => absurd hp (ht p),fun hc => absurd (.inr ⟨rfl,hc.1⟩) hc.2.2⟩
    · rw [if_neg hu]
      simpa [hu] using h.mem p u
  · rw [modify_threads]
    split
    · exact (setState_keeps _ x).valid (h.valid t)
    · exact h.valid u

theorem Listed.insertReady (ht : ∀ p, t∉ready p) (hready : s.states t = .ready) (atHead : Bool) :
    ∃ ready', Listed (s.insertReady atHead (s.threads t).priority.toNat t) ready'
      fun u => limbo u ∧ u≠t := by
  have hv := h.valid t
  have hlt : (s.threads t).priority.toNat< maximumPriority := by
    have h1 := hv.priority_le
    simp only [highPriority,maximumPriority] at *
    omega
  obtain ⟨ready',hq,hmem⟩ := h.queues.insert hlt ht atHead
  refine ⟨ready',hq,fun p u => ?_,h.valid⟩
  rw [hmem,h.mem]
  show _ ↔ s.states u = .ready ∧ (s.threads u).priority=p ∧ ¬(limbo u ∧ u≠t)
  by_cases hu : u=t
  · subst hu
    have h0 := hv.priority_nonneg
    have hlim := h.mem_limbo ht hready
    simp only [hready,hlim,not_true,and_false,false_or,and_true,true_and,not_false_eq_true,ne_eq]
    omega
  · simp [hu]

theorem Listed.removeReady (ht : t∈ready p) :
    ∃ ready', Listed (s.removeReady p t) ready' (fun u => limbo u ∨ u=t) ∧
      ∀ q u, u∈ready' q ↔ u∈ready q ∧ u≠t := by
  obtain ⟨ready',hq,hmem⟩ := h.queues.remove ht
  refine ⟨ready',⟨hq,fun q u => ?_,h.valid⟩,hmem⟩
  rw [hmem,h.mem]
  tauto

end

end Listed

/-- The invariant of the scheduler, where one thread may be between two states. -/
structure Inv (s : Prcb τ) (ready : Nat → List τ) (deferred : Option τ) : Prop where
  listed : Listed s ready fun _ => False
  running : ∀ t, s.states t = .running ↔ t=s.currentThread
  standby : ∀ t, s.states t = .standby ↔ s.nextThread=some t
  deferredReady : ∀ t, s.states t = .deferredReady ↔ deferred=some t
  idle : s.kiIdleSummary →
    s.nextThread=none ∧ s.currentThread=s.idleThread ∧ ∀ p, ready p=[]

def Placed (state : KThreadState) (current : τ) (next deferred : Option τ) (t : τ) : Prop :=
  (state = .running ↔ t=current) ∧ (state = .standby ↔ next=some t) ∧
  (state = .deferredReady ↔ deferred=some t)

structure Leads (s s' : Prcb τ) : Prop where
  inv : ∃ ready, Inv s' ready none
  step : Step s s'

section Inv
variable {ready : Nat → List τ} {d : Option τ} {t n : τ}

theorem Inv.leads (h : Inv s ready none) : Leads s s := ⟨⟨ready,h⟩,.refl s⟩

theorem Inv.placed (h : Inv s ready d) (t : τ) :
    Placed (s.states t) s.currentThread s.nextThread d t :=
  ⟨h.running t,h.standby t,h.deferredReady t⟩

theorem Inv.of_placed (hl : Listed s ready fun _ => False)
    (hp : ∀ t, Placed (s.states t) s.currentThread s.nextThread d t)
    (hidle : s.kiIdleSummary →
      s.nextThread=none ∧ s.currentThread=s.idleThread ∧ ∀ p, ready p=[]) : Inv s ready d :=
  ⟨hl,fun t => (hp t).1,fun t => (hp t).2.1,fun t => (hp t).2.2,hidle⟩

theorem Leads.after {s₁ : Prcb τ} (h : Leads s₁ s') (hstep : Step s s₁) : Leads s s' :=
  ⟨h.inv,hstep.trans h.step⟩

variable [DecidableEq τ]

theorem Step.modify (s : Prcb τ) (t : τ) (hk : (s.threads t).Keeps (f (s.threads t)))
    (ha : (s.states t).active → (f (s.threads t)).state.active) : Step s (s.modify t f) := by
  refine ⟨fun u => ?_,fun u hu => ?_,rfl⟩
  · rw [modify_threads]
    split
    · next hut => exact hut ▸ hk
    · exact .refl _
  · rw [modify_states]
    split
    · next hut => exact ha (hut ▸ hu)
    · exact hu

theorem Inv.of_listed (h : Inv s ready d) (hl : Listed (s.modify t f) ready fun _ => False)
    (hs : (f (s.threads t)).state=(s.threads t).state) : Inv (s.modify t f) ready d := by
  have hstates : ∀ u, (s.modify t f).states u=s.states u := by
    intro u
    rw [modify_states]
    split
    · next hu => rw [hu]; exact hs
    · rfl
  refine .of_placed hl (fun u => ?_) h.idle
  rw [hstates]
  exact h.placed u

theorem Inv.modify (h : Inv s ready d) (ht : s.states t ≠ .ready)
    (hk : (s.threads t).Keeps (f (s.threads t)))
    (hs : (f (s.threads t)).state=(s.threads t).state) :
    Inv (s.modify t f) ready d ∧ Step s (s.modify t f) :=
  ⟨h.of_listed (h.listed.modify (h.listed.not_mem_of_state ht) (hk.valid (h.listed.valid t)) hs) hs,
    .modify s t hk (by rw [hs]; exact id)⟩

theorem Inv.touch (h : Inv s ready d) (t : τ) (hk : (s.threads t).Keeps (f (s.threads t)))
    (hs : (f (s.threads t)).state=(s.threads t).state)
    (hp : (f (s.threads t)).priority=(s.threads t).priority) :
    Inv (s.modify t f) ready d ∧ Step s (s.modify t f) :=
  ⟨h.of_listed (h.listed.touch (hk.valid (h.listed.valid t)) hs hp) hs,
    .modify s t hk (by rw [hs]; exact id)⟩

theorem setState_states (s : Prcb τ) (t : τ) (x : KThreadState) (u : τ) :
    (s.modify t (·.setState x)).states u=if u=t then x else s.states u :=
  modify_states s t _ u

theorem Step.setState (s : Prcb τ) (t : τ) (hx : x.active) : Step s (s.modify t (·.setState x)) :=
  .modify s t (setState_keeps _ x) fun _ => hx

section
variable (h : Inv s ready (some t))
include h

/-- The deferred thread becomes the next thread. -/
theorem Inv.toStandby (hn : s.nextThread=none) :
    Inv { (s.modify t (·.setState .standby)).setNext (some t) with kiIdleSummary := false } ready
        none ∧
      Step s
        { (s.modify t (·.setState .standby)).setNext (some t) with kiIdleSummary := false } := by
  have ht : s.states t = .deferredReady := (h.deferredReady t).mpr rfl
  have hoff := h.listed.not_mem_of_state (by rw [ht]; decide)
  have hstates := setState_states s t .standby
  have hstep := Step.setState s t (x := .standby) rfl
  refine ⟨.of_placed ((h.listed.setState hoff .standby).congr rfl rfl rfl (by simp)) (fun u => ?_)
    (by simp),hstep.congr rfl rfl⟩
  have hr := h.placed u
  show Placed ((s.modify t (·.setState .standby)).states u) s.currentThread (some t) none u
  grind [Placed]

/-- The deferred thread becomes the next thread and the next one is deferred. -/
theorem Inv.preempt (hn : s.nextThread=some n)
    (hs' : s'=((s.modify t (·.setState .standby)).setNext (some t)).modify n
      (·.setState .deferredReady)) : Inv s' ready (some n) ∧ Step s s' := by
  have ht : s.states t = .deferredReady := (h.deferredReady t).mpr rfl
  have hn' : s.states n = .standby := (h.standby n).mpr hn
  have hoff := h.listed.not_mem_of_state (by rw [ht]; decide)
  have hoff' := h.listed.not_mem_of_state (by rw [hn']; decide)
  have hlisted := (h.listed.setState hoff .standby).setState hoff' .deferredReady
  have hstates : ∀ u, s'.states u =
      if u=n then .deferredReady else if u=t then .standby else s.states u := by
    intro u
    rw [hs',setState_states]
    exact if_congr Iff.rfl rfl (setState_states s t .standby u)
  have hstep₁ : Step s ((s.modify t (·.setState .standby)).setNext (some t)) :=
    (Step.setState s t rfl).congr rfl rfl
  have hstep₂ : Step ((s.modify t (·.setState .standby)).setNext (some t)) s' := by
    rw [hs']
    exact Step.setState _ n rfl
  refine ⟨.of_placed ?_ (fun u => ?_) fun hidle => ?_,hstep₁.trans hstep₂⟩
  · rw [hs']
    exact hlisted.congr rfl rfl rfl (by simp)
  · have hr := h.placed u
    have hc : s'.currentThread=s.currentThread := by rw [hs']; rfl
    have hnext : s'.nextThread=some t := by rw [hs']; rfl
    grind [Placed]
  · have hc : s'.kiIdleSummary=s.kiIdleSummary := by rw [hs']; rfl
    have hnone := (h.idle (hc ▸ hidle)).1
    rw [hn] at hnone
    exact absurd hnone (by simp)

/-- The deferred thread goes to the list of its priority. -/
theorem Inv.toReady (hidle : s.kiIdleSummary=false) (atHead : Bool)
    (hs' : s'=(s.modify t (·.setState .ready)).insertReady atHead
      (s.threads t).priority.toNat t) : ∃ ready', Inv s' ready' none ∧ Step s s' := by
  have ht : s.states t = .deferredReady := (h.deferredReady t).mpr rfl
  have hoff := h.listed.not_mem_of_state (by rw [ht]; decide)
  have hstates : ∀ u, s'.states u=if u=t then .ready else s.states u := by
    intro u
    rw [hs']
    exact setState_states s t .ready u
  have hprio : ((s.modify t (·.setState .ready)).threads t).priority=(s.threads t).priority := by
    rw [modify_threads,if_pos rfl]
    rfl
  obtain ⟨ready',hlisted⟩ := (h.listed.setState hoff .ready).insertReady hoff
    (by rw [setState_states,if_pos rfl]) atHead
  rw [hprio,← hs'] at hlisted
  have hstep : Step s s' := by
    rw [hs']
    exact (Step.setState s t rfl).congr rfl rfl
  refine ⟨ready',.of_placed (hlisted.congr rfl rfl rfl (by simp)) (fun u => ?_) fun hc => ?_,hstep⟩
  · have hr := h.placed u
    have hc : s'.currentThread=s.currentThread := by rw [hs']; rfl
    have hnext : s'.nextThread=s.nextThread := by rw [hs']; rfl
    grind [Placed]
  · have hk : s'.kiIdleSummary=s.kiIdleSummary := by rw [hs']; rfl
    rw [hk,hidle] at hc
    exact Bool.noConfusion hc

/-- The deferred thread becomes the next thread, and the current thread is preempted. -/
theorem Inv.preemptCurrent (hn : s.nextThread=none) (hidle : s.kiIdleSummary=false) :
    Inv (((if (s.threads s.currentThread).state = .running then
        s.modify s.currentThread (·.setPreempted true) else s).modify t
          (·.setState .standby)).setNext (some t)) ready none ∧
      Step s (((if (s.threads s.currentThread).state = .running then
        s.modify s.currentThread (·.setPreempted true) else s).modify t
          (·.setState .standby)).setNext (some t)) := by
  have hcur : (s.threads s.currentThread).state = .running := (h.running _).mpr rfl
  rw [if_pos hcur]
  obtain ⟨h₁,hstep₁⟩ := h.modify (f := (·.setPreempted true))
    (by rw [states,hcur]; decide) (setPreempted_keeps _ _) rfl
  obtain ⟨s₁,hs₁⟩ : ∃ s₁, s₁=s.modify s.currentThread (·.setPreempted true) := ⟨_,rfl⟩
  rw [← hs₁] at h₁ hstep₁ ⊢
  obtain ⟨h₂,hstep₂⟩ := h₁.toStandby (by rw [hs₁]; exact hn)
  have hidle₁ : s₁.kiIdleSummary=false := by rw [hs₁]; exact hidle
  have heta : { (s₁.modify t (·.setState .standby)).setNext (some t) with
      kiIdleSummary := false }=(s₁.modify t (·.setState .standby)).setNext (some t) := by
    rw [← hidle₁]
    rfl
  rw [heta] at h₂ hstep₂
  exact ⟨h₂,hstep₁.trans hstep₂⟩

end

def Enough (s : Prcb τ) (t : τ) (fuel : Nat) : Prop :=
  ∀ n, s.nextThread=some n →
    3≤fuel ∨ (2≤fuel ∧ (s.threads n).adjustReason = .adjustNone) ∨
      ((s.threads t).adjustReason = .adjustNone ∧ (s.threads t).priority≤(s.threads n).priority)

theorem Inv.kiDeferredReadyThread {fuel : Nat} (h : Inv s ready (some t)) (hpos : 1≤fuel)
    (hfuel : Enough s t fuel) : ∃ s', s.kiDeferredReadyThread fuel t=some s' ∧ Leads s s' := by
  induction fuel generalizing s t ready with
  | zero => omega
  | succ fuel ih =>
    have ht : s.states t = .deferredReady := (h.deferredReady t).mpr rfl
    obtain ⟨h₁,hstep₁⟩ := h.modify (by rw [ht]; decide) (adjust_keeps _)
      (adjust_state _)
    have ht₁ : (s.modify t adjust).states t = .deferredReady :=
      (h₁.deferredReady t).mpr rfl
    obtain ⟨h₂,hstep₂⟩ := h₁.modify (f := (·.setPreempted false)) (by rw [ht₁]; decide)
      (setPreempted_keeps _ _) rfl
    obtain ⟨s₂,hs₂⟩ : ∃ s₂, s₂=(s.modify t adjust).modify t (·.setPreempted false) :=
      ⟨_,rfl⟩
    have hstep := hstep₁.trans hstep₂
    rw [← hs₂] at h₂ hstep
    have hadjust : s₂.threads t=(s.threads t).adjust.setPreempted false := by
      rw [hs₂,modify_threads,if_pos rfl,modify_threads,if_pos rfl]
    have hother : ∀ u, u≠t → s₂.threads u=s.threads u := by
      intro u hu
      rw [hs₂,modify_threads,if_neg hu,modify_threads,if_neg hu]
    have hnext : s₂.nextThread=s.nextThread := by rw [hs₂]; rfl
    have hprio : ((s.modify t adjust).threads t).priority=(s₂.threads t).priority := by
      rw [hadjust,modify_threads,if_pos rfl]
      rfl
    simp only [Prcb.kiDeferredReadyThread,← hs₂,hprio]
    generalize ((s.modify t adjust).threads t).preempted=atHead
    by_cases hidle : s₂.kiIdleSummary=true
    · obtain ⟨h₃,hstep₃⟩ := h₂.toStandby (h₂.idle hidle).1
      exact ⟨_,if_pos hidle,⟨ready,h₃⟩,hstep.trans hstep₃⟩
    · rw [if_neg hidle]
      rw [Bool.not_eq_true] at hidle
      cases hn : s₂.nextThread with
      | none =>
        simp only
        split
        · obtain ⟨h₃,hstep₃⟩ := h₂.preemptCurrent hn hidle
          exact ⟨_,rfl,⟨ready,h₃⟩,hstep.trans hstep₃⟩
        · obtain ⟨ready',h₃,hstep₃⟩ := h₂.toReady hidle atHead rfl
          exact ⟨_,rfl,⟨ready',h₃⟩,hstep.trans hstep₃⟩
      | some n =>
        simp only
        split
        · next hgt =>
          have hn' : s₂.states n = .standby := (h₂.standby n).mpr hn
          have hnt : n≠t := by
            rintro rfl
            exact absurd (hn'.symm.trans ((h₂.deferredReady n).mpr rfl)) (by decide)
          obtain ⟨h₃,hstep₃⟩ := h₂.modify (f := (·.setPreempted true))
            (by rw [hn']; decide) (setPreempted_keeps _ _) rfl
          obtain ⟨s₃,hs₃⟩ : ∃ s₃, s₃=s₂.modify n (·.setPreempted true) := ⟨_,rfl⟩
          rw [← hs₃] at h₃ hstep₃ ⊢
          obtain ⟨s₄,hs₄⟩ : ∃ s₄, s₄=((s₃.modify t (·.setState .standby)).setNext
            (some t)).modify n (·.setState .deferredReady) := ⟨_,rfl⟩
          obtain ⟨h₄,hstep₄⟩ := h₃.preempt (by rw [hs₃]; exact hn) hs₄
          rw [← hs₄]
          have hn₄ : s₄.threads n=((s.threads n).setPreempted true).setState .deferredReady := by
            rw [hs₄,modify_threads,if_pos rfl,setNext_threads,modify_threads,if_neg hnt,hs₃,
              modify_threads,if_pos rfl,hother n hnt]
          have ht₄ : s₄.threads t=((s.threads t).adjust.setPreempted false).setState .standby := by
            rw [hs₄,modify_threads,if_neg hnt.symm,setNext_threads,modify_threads,if_pos rfl,hs₃,
              modify_threads,if_neg hnt.symm,hadjust]
          have hlt : (s₄.threads n).priority<(s₄.threads t).priority := by
            rw [hadjust,hother n hnt] at hgt
            rw [hn₄,ht₄]
            exact hgt
          obtain ⟨hpos',henough⟩ : 1≤fuel ∧ Enough s₄ n fuel := by
            have hnext₄ : s₄.nextThread=some t := by rw [hs₄]; rfl
            have hreason : (s₄.threads t).adjustReason = .adjustNone := by
              rw [ht₄]
              exact adjust_adjustReason _
            obtain h3 | ⟨h2,hr⟩ | ⟨hr,hle⟩ := hfuel n (hnext ▸ hn)
            · refine ⟨by omega,fun m hm => ?_⟩
              obtain rfl : t=m := Option.some.inj (hnext₄.symm.trans hm)
              exact .inr (.inl ⟨by omega,hreason⟩)
            · refine ⟨by omega,fun m hm => ?_⟩
              obtain rfl : t=m := Option.some.inj (hnext₄.symm.trans hm)
              exact .inr (.inr ⟨by rw [hn₄]; exact hr,hlt.le⟩)
            · rw [hn₄,ht₄,adjust_eq hr] at hlt
              exact absurd hlt (not_lt.mpr hle)
          obtain ⟨s',hcall,h'⟩ := ih h₄ hpos' henough
          exact ⟨s',hcall,h'.after ((hstep.trans hstep₃).trans hstep₄)⟩
        · obtain ⟨ready',h₃,hstep₃⟩ := h₂.toReady hidle atHead rfl
          exact ⟨_,rfl,⟨ready',h₃⟩,hstep.trans hstep₃⟩

variable {limbo : τ → Prop}

/-- A thread that is in no place of its own becomes the deferred thread. -/
theorem Inv.ofDeferred (hl : Listed s ready limbo) (hlimbo : ∀ u, limbo u → u=t)
    (hoff : ∀ p, t∉ready p) (hplaced : ∀ u, u≠t →
      Placed (s.states u) s.currentThread s.nextThread none u)
    (hcur : t≠s.currentThread) (hnext : s.nextThread≠some t)
    (hidle : s.kiIdleSummary →
      s.nextThread=none ∧ s.currentThread=s.idleThread ∧ ∀ p, ready p=[]) :
    Inv (s.modify t (·.setState .deferredReady)) ready (some t) := by
  have hstates := setState_states s t .deferredReady
  refine .of_placed ((hl.setState hoff .deferredReady).congr rfl rfl rfl fun u => ?_)
    (fun u => ?_) hidle
  · have := hlimbo u
    tauto
  · have hr := hplaced u
    show Placed _ s.currentThread s.nextThread _ u
    grind [Placed]

theorem Inv.kiInsertDeferredReadyList
    (h : Inv (s.modify t (·.setState .deferredReady)) ready (some t)) :
    ∃ s', s.kiInsertDeferredReadyList t=some s' ∧
      Leads (s.modify t (·.setState .deferredReady)) s' :=
  h.kiDeferredReadyThread (by decide) fun _ _ => .inl (by decide)

theorem Listed.kiSelectReadyThread (h : Listed s ready fun _ => False) (p : Nat) :
    (s.kiSelectReadyThread p=(none, s) ∧ ∀ q, p≤q → ready q=[]) ∨
      ∃ n q ready', s.kiSelectReadyThread p=(some n, s.removeReady q n) ∧ n∈ready q ∧
        Listed (s.removeReady q n) ready' (· = n) ∧ ∀ p, n∉ready' p := by
  obtain ⟨hz,hnil⟩ | ⟨hz,n,hn,hflink⟩ := h.queues.highest p
  · refine .inl ⟨?_,hnil⟩
    rw [Prcb.kiSelectReadyThread]
    simp [hz]
  · obtain ⟨q,hq⟩ : ∃ q, q=(s.readySummary >>> p).log2+p := ⟨_,rfl⟩
    rw [← hq] at hn hflink
    obtain ⟨ready',hlisted,hmem⟩ := h.removeReady hn
    refine .inr ⟨n,q,ready',?_,hn,hlisted.congr rfl rfl rfl (by simp),
      fun p hp => ((hmem p n).mp hp).2 rfl⟩
    simp [Prcb.kiSelectReadyThread,hz,← hq,hflink]

theorem Inv.kiSelectReadyThread (h : Inv s ready d) (p : Nat) :
    s.kiSelectReadyThread p=(none, s) ∨
      ∃ n q ready', s.kiSelectReadyThread p=(some n, s.removeReady q n) ∧
        s.states n = .ready ∧ s.kiIdleSummary=false ∧
        Listed (s.removeReady q n) ready' (· = n) ∧ ∀ p, n∉ready' p := by
  obtain ⟨hcall,-⟩ | ⟨n,q,ready',hcall,hn,hlisted,hoff⟩ := h.listed.kiSelectReadyThread p
  · exact .inl hcall
  · refine .inr ⟨n,q,ready',hcall,((h.listed.mem q n).mp hn).1,?_,hlisted,hoff⟩
    rw [Bool.eq_false_iff]
    intro hidle
    rw [(h.idle hidle).2.2 q] at hn
    simp at hn

/-- A thread that is found becomes the next one. -/
theorem Inv.selectNext (h : Inv s ready none) (hn : s.nextThread=none) (p : Nat) :
    Leads s (s.selectNext p) := by
  obtain hcall | ⟨n,q,ready',hcall,hready,hidle,hlisted,hoff⟩ := h.kiSelectReadyThread p
  · rw [Prcb.selectNext,hcall]
    exact h.leads
  · rw [Prcb.selectNext,hcall]
    have hstates : ∀ u, ((s.removeReady q n).modify n (·.setState .standby)).states u =
        if u=n then .standby else s.states u := setState_states (s.removeReady q n) n .standby
    have hstep : Step s ((s.removeReady q n).modify n (·.setState .standby)) :=
      (Step.setState s n rfl).congr rfl rfl
    refine ⟨⟨ready',.of_placed ((hlisted.setState hoff .standby).congr rfl rfl rfl (by simp))
      (fun u => ?_) fun hc => ?_⟩,hstep.congr rfl rfl⟩
    · have hr := h.placed u
      show Placed (((s.removeReady q n).modify n (·.setState .standby)).states u) s.currentThread
        (some n) none u
      grind [Placed]
    · exact absurd (hidle.symm.trans hc) (by simp)

theorem Listed.kxQueueReadyThread (h : Listed s ready limbo) (ht : ∀ p, t∉ready p) :
    (∃ ready', Listed (s.kxQueueReadyThread t) ready' fun u => limbo u ∧ u≠t) ∧
      (∀ u, (s.kxQueueReadyThread t).states u=if u=t then .ready else s.states u) ∧
      ∀ u, (s.threads u).Keeps ((s.kxQueueReadyThread t).threads u) := by
  obtain ⟨s₂,hs₂⟩ : ∃ s₂, s₂=(s.modify t (·.setState .ready)).modify t (·.setPreempted false) :=
    ⟨_,rfl⟩
  obtain ⟨b,hcall⟩ : ∃ b, s.kxQueueReadyThread t =
      s₂.insertReady b (s₂.threads t).priority.toNat t := by
    refine ⟨((s.modify t (·.setState .ready)).threads t).preempted,?_⟩
    have hprio : (s₂.threads t).priority =
        ((s.modify t (·.setState .ready)).threads t).priority := by
      rw [hs₂,modify_threads,if_pos rfl]
      rfl
    rw [Prcb.kxQueueReadyThread,hprio,hs₂]
  have hstates : ∀ u, s₂.states u=if u=t then .ready else s.states u := by
    intro u
    rw [hs₂,modify_states,setState_states]
    split
    · rw [modify_threads,if_pos rfl]
      rfl
    · rfl
  have hlisted : Listed s₂ ready fun u => (limbo u ∧ u≠t) ∨
    (u=t ∧ KThreadState.ready = .ready) := by
    rw [hs₂]
    have hset := h.setState ht .ready
    exact hset.touch ((setPreempted_keeps _ _).valid (hset.valid t)) rfl rfl
  rw [hcall]
  refine ⟨?_,hstates,fun u => ?_⟩
  · obtain ⟨ready',hl⟩ := hlisted.insertReady ht (by rw [hstates,if_pos rfl]) b
    exact ⟨ready',hl.congr rfl rfl rfl fun u => by tauto⟩
  · show (s.threads u).Keeps (s₂.threads u)
    rw [hs₂,modify_threads]
    split
    · next hu =>
      rw [hu,modify_threads,if_pos rfl]
      exact (setState_keeps _ _).trans (setPreempted_keeps _ _)
    · next hu =>
      rw [modify_threads,if_neg hu]
      exact .refl _

/-- The current thread and a thread that is in no place of its own change places. -/
theorem Inv.switchTo (hl : Listed s ready limbo) (hlimbo : ∀ u, limbo u → u=n)
    (hoff : ∀ p, n∉ready p) (hrunning : ∀ u, s.states u = .running ↔ u=s.currentThread)
    (hcur : n≠s.currentThread) (hstandby : ∀ u, s.states u = .standby → u=n)
    (hdeferred : ∀ u, s.states u ≠ .deferredReady) (hidle : s.kiIdleSummary=false) :
    Leads s (s.switchTo n) := by
  have hc : s.states s.currentThread = .running := (hrunning _).mpr rfl
  obtain ⟨s₂,hs₂⟩ : ∃ s₂ : Prcb τ, s₂=Prcb.modify
    { s.setNext none with currentThread := n } n (·.setState .running) := ⟨_,rfl⟩
  have hstates₂ : ∀ u, s₂.states u=if u=n then .running else s.states u := by
    intro u
    rw [hs₂]
    exact setState_states _ n .running u
  have hlisted₂ : Listed s₂ ready fun _ => False := by
    have hset : Listed { s.setNext none with currentThread := n } ready limbo :=
      hl.congr rfl rfl rfl fun u => Iff.rfl
    rw [hs₂]
    refine (hset.setState hoff .running).congr rfl rfl rfl fun u => ?_
    tauto
  have hoff₂ := hlisted₂.not_mem_of_state
    (by rw [hstates₂,if_neg (Ne.symm hcur),hc]; decide)
  obtain ⟨⟨ready',hlisted⟩,hstates,hkeeps⟩ := hlisted₂.kxQueueReadyThread hoff₂
  have hcall : s.switchTo n=s₂.kxQueueReadyThread s.currentThread := by rw [hs₂]; rfl
  rw [← hcall] at hlisted hstates hkeeps
  have hfields : (s.switchTo n).currentThread=n ∧ (s.switchTo n).nextThread=none ∧
      (s.switchTo n).kiIdleSummary=s.kiIdleSummary ∧ (s.switchTo n).idleThread=s.idleThread :=
    ⟨rfl,rfl,rfl,rfl⟩
  obtain ⟨hf1,hf2,hf3,hf4⟩ := hfields
  have hstates' : ∀ u, (s.switchTo n).states u =
      if u=s.currentThread then .ready else if u=n then .running else s.states u := by
    intro u
    rw [hstates,hstates₂]
  refine ⟨⟨ready',.of_placed (hlisted.congr rfl rfl rfl (by simp)) (fun u => ?_) fun hk => ?_⟩,
    ⟨fun u => ?_,fun u hu => ?_,hf4⟩⟩
  · have hr := hrunning u
    grind [Placed]
  · exact absurd (hidle.symm.trans (hf3.symm.trans hk)) (by simp)
  · refine KThread.Keeps.trans ?_ (hkeeps u)
    rw [hs₂,modify_threads]
    split
    · next hu => rw [hu]; exact setState_keeps _ _
    · exact .refl _
  · rw [hstates']
    split
    · rfl
    · split
      · rfl
      · exact hu

/-- The next thread runs. -/
theorem Inv.switchToNext (h : Inv s ready none) (hn : s.nextThread=some n) :
    Leads s (s.switchTo n) := by
  have hn' : s.states n = .standby := (h.standby n).mpr hn
  refine Inv.switchTo h.listed (fun _ => False.elim)
    (h.listed.not_mem_of_state (by rw [hn']; decide)) h.running ?_
    (fun u hu => ?_) (fun u hu => ?_) ?_
  · intro hcur
    have hr := (h.running n).mpr hcur
    rw [hn'] at hr
    exact KThreadState.noConfusion hr
  · exact (Option.some.inj (hn.symm.trans ((h.standby u).mp hu))).symm
  · exact absurd ((h.deferredReady u).mp hu) (by simp)
  · rw [Bool.eq_false_iff]
    intro hidle
    rw [(h.idle hidle).1] at hn
    exact absurd hn (by simp)

/-- The next thread runs, and the wait IRQL of the old one is set. -/
theorem Inv.switchAway (h : Inv s ready none) (hn : s.nextThread=some n) (irql : Nat) :
    Leads s ((s.switchTo n).modify s.currentThread fun th => { th with waitIrql := irql }) := by
  obtain ⟨⟨ready',h₁⟩,hstep₁⟩ := h.switchToNext hn
  obtain ⟨h₂,hstep₂⟩ := h₁.touch s.currentThread (f := fun th => { th with waitIrql := irql })
    (.of_eq rfl rfl rfl rfl) rfl rfl
  exact ⟨⟨ready',h₂⟩,hstep₁.trans hstep₂⟩

theorem Inv.kiExitDispatcher (h : Inv s ready none) (oldIrql : Nat) :
    Leads s (s.kiExitDispatcher oldIrql) := by
  rw [Prcb.kiExitDispatcher]
  split
  · exact h.leads
  · cases hn : s.nextThread with
    | none => exact h.leads
    | some n => exact h.switchAway hn oldIrql

theorem Inv.endQuantum (h : Inv s ready none) (ht : s.states t ≠ .ready) :
    Leads s (s.endQuantum t) := by
  obtain ⟨h₁,hstep₁⟩ := h.modify ht
    (renewQuantum_keeps _) (renewQuantum_state _)
  rw [Prcb.endQuantum]
  obtain ⟨s₁,hs₁⟩ : ∃ s₁, s₁=s.modify t renewQuantum :=
    ⟨_,rfl⟩
  rw [← hs₁] at h₁ hstep₁ ⊢
  cases hn : s₁.nextThread with
  | none =>
    exact (h₁.selectNext hn (s₁.threads t).priority.toNat).after hstep₁
  | some n =>
    obtain ⟨h₂,hstep₂⟩ := h₁.touch t (f := (·.setPreempted false))
      (setPreempted_keeps _ _) rfl rfl
    exact ⟨⟨ready,h₂⟩,hstep₁.trans hstep₂⟩

theorem selectNext_currentThread (s : Prcb τ) (p : Nat) :
    (s.selectNext p).currentThread=s.currentThread := by
  have hselect : (s.kiSelectReadyThread p).2.currentThread=s.currentThread := by
    rw [Prcb.kiSelectReadyThread]
    split
    · rfl
    · dsimp only
      split
      · rfl
      · rfl
  rw [Prcb.selectNext]
  cases hcall : s.kiSelectReadyThread p with
  | mk n s₁ =>
    rw [hcall] at hselect
    cases n with
    | none => exact hselect
    | some n => exact hselect

theorem endQuantum_currentThread (s : Prcb τ) (t : τ) :
    (s.endQuantum t).currentThread=s.currentThread := by
  rw [Prcb.endQuantum]
  split
  · exact selectNext_currentThread _ _
  · rfl

theorem Inv.kiAdjustQuantumThread (h : Inv s ready none) :
    Leads s (s.kiAdjustQuantumThread s.currentThread) := by
  obtain ⟨⟨ready₁,h₁⟩,hstep₁⟩ : Leads s (s.adjustQuantum s.currentThread) := by
    rw [Prcb.adjustQuantum]
    split
    · obtain ⟨h₁,hstep₁⟩ := h.touch s.currentThread (f := fun th => th.setQuantum (th.quantum-1))
        (setQuantum_keeps _ _) rfl rfl
      dsimp only
      split
      · have hc₁ := (h₁.running s.currentThread).mpr rfl
        exact (h₁.endQuantum (by rw [hc₁]; decide)).after hstep₁
      · exact ⟨⟨ready,h₁⟩,hstep₁⟩
    · exact h.leads
  exact (h₁.kiExitDispatcher
    ((s.adjustQuantum s.currentThread).threads s.currentThread).waitIrql).after hstep₁

theorem Inv.kiQuantumEnd (h : Inv s ready none) : Leads s s.kiQuantumEnd := by
  have hc : s.states s.currentThread = .running := (h.running _).mpr rfl
  obtain ⟨s₁,hs₁⟩ : ∃ s₁, s₁=s.checkQuantum s.currentThread := ⟨_,rfl⟩
  obtain ⟨⟨⟨ready₁,h₁⟩,hstep₁⟩,hcur⟩ : Leads s s₁ ∧ s₁.currentThread=s.currentThread := by
    rw [hs₁,Prcb.checkQuantum]
    split
    · split
      · obtain ⟨h₁,hstep₁⟩ := h.touch s.currentThread (f := (·.setQuantum maxQuantum))
          (setQuantum_keeps _ _) rfl rfl
        exact ⟨⟨⟨ready,h₁⟩,hstep₁⟩,rfl⟩
      · exact ⟨h.endQuantum (by rw [hc]; decide),endQuantum_currentThread s _⟩
    · exact ⟨h.leads,rfl⟩
  rw [Prcb.kiQuantumEnd,← hs₁,← hcur]
  cases hn : s₁.nextThread with
  | none => exact ⟨⟨ready₁,h₁⟩,hstep₁⟩
  | some n => exact (h₁.switchAway hn 1).after hstep₁

theorem Inv.ntYieldExecution (h : Inv s ready none) : Leads s s.ntYieldExecution := by
  have hc : s.states s.currentThread = .running := (h.running _).mpr rfl
  rw [Prcb.ntYieldExecution]
  split
  · exact h.leads
  · cases hn : s.nextThread with
    | some n =>
      obtain ⟨h₁,hstep₁⟩ := h.modify (by rw [hc]; decide)
        (renewQuantum_keeps _) (renewQuantum_state _)
      exact (h₁.switchAway hn 1).after hstep₁
    | none =>
      obtain hcall | ⟨n,q,ready₁,hcall,hready,hidle,hlisted,hoff⟩ :=
        h.kiSelectReadyThread 1
      · rw [hcall]
        exact h.leads
      · rw [hcall]
        have hncur : n≠s.currentThread := by
          rintro rfl
          exact absurd (hready.symm.trans hc) (by decide)
        obtain ⟨s₁,hs₁⟩ : ∃ s₁, s₁=(s.removeReady q n).modify s.currentThread
          renewQuantum := ⟨_,rfl⟩
        have hcoff : ∀ p, s.currentThread∉ready₁ p :=
          hlisted.not_mem_of_state (by show s.states s.currentThread≠_; rw [hc]; decide)
        have hlisted₁ : Listed s₁ ready₁ (· = n) := by
          rw [hs₁]
          exact hlisted.modify hcoff ((renewQuantum_keeps _).valid (hlisted.valid _))
            (renewQuantum_state _)
        have hstates₁ : ∀ u, s₁.states u=s.states u := by
          intro u
          rw [hs₁,modify_states]
          split
          · next hu => rw [hu]; exact renewQuantum_state _
          · rfl
        have hstep₁ : Step s s₁ := by
          rw [hs₁]
          exact (Step.modify s s.currentThread (renewQuantum_keeps _)
            (by rw [renewQuantum_state]; exact id)).congr rfl rfl
        have hfields : s₁.currentThread=s.currentThread ∧ s₁.kiIdleSummary=s.kiIdleSummary := by
          rw [hs₁]
          exact ⟨rfl,rfl⟩
        obtain ⟨hf1,hf2⟩ := hfields
        obtain ⟨⟨ready₂,h₂⟩,hstep₂⟩ := Inv.switchTo hlisted₁ (fun u hu => hu) hoff
          (fun u => by rw [hstates₁,hf1]; exact h.running u)
          (by rw [hf1]; exact hncur)
          (fun u hu => by
            rw [hstates₁,h.standby,hn] at hu
            exact absurd hu (by simp))
          (fun u hu => by
            rw [hstates₁,h.deferredReady] at hu
            exact absurd hu (by simp)) (hf2.trans hidle)
        obtain ⟨h₃,hstep₃⟩ := h₂.touch s.currentThread (f := fun th => { th with waitIrql := 1 })
          (.of_eq rfl rfl rfl rfl) rfl rfl
        simp only [← hs₁]
        exact ⟨⟨ready₂,h₃⟩,(hstep₁.trans hstep₂).trans hstep₃⟩

structure Leaving (s : Prcb τ) (ready : Nat → List τ) : Prop where
  listed : Listed s ready fun _ => False
  running : ∀ t, s.states t ≠ .running
  standby : ∀ t, s.states t = .standby ↔ s.nextThread=some t
  deferredReady : ∀ t, s.states t ≠ .deferredReady
  idle : s.kiIdleSummary=false

/-- A thread that is in no place of its own is the new current thread. -/
theorem Inv.ofRunning (hl : Listed s ready limbo) (hlimbo : ∀ u, limbo u → u=n)
    (hoff : ∀ p, n∉ready p) (hrunning : ∀ u, s.states u ≠ .running)
    (hstandby : ∀ u, s.states u = .standby → u=n) (hdeferred : ∀ u, s.states u ≠ .deferredReady)
    (hs' : s'.threads=(s.modify n (·.setState .running)).threads) (hlinks : s'.links=s.links)
    (hsummary : s'.readySummary=s.readySummary) (hcur : s'.currentThread=n)
    (hnext : s'.nextThread=none)
    (hidle : s'.kiIdleSummary → n=s'.idleThread ∧ ∀ p, ready p=[]) : Inv s' ready none := by
  have hstates : ∀ u, s'.states u=if u=n then .running else s.states u := by
    intro u
    rw [states,hs']
    exact setState_states s n .running u
  refine .of_placed ((hl.setState hoff .running).congr hs' hlinks hsummary fun u => ?_)
    (fun u => ?_)
    fun hk => ?_
  · have := hlimbo u
    tauto
  · have hu := hstates u
    grind [Placed]
  · obtain ⟨h1,h2⟩ := hidle hk
    exact ⟨hnext,hcur.trans h1,h2⟩

theorem Leaving.kiSwapThread (h : Leaving s ready) : Leads s s.kiSwapThread := by
  have hstandby : ∀ u, s.nextThread=none → s.states u ≠ .standby := by
    intro u hn hu
    rw [h.standby,hn] at hu
    exact absurd hu (by simp)
  rw [Prcb.kiSwapThread]
  cases hn : s.nextThread with
  | some n =>
    have hn' : s.states n = .standby := (h.standby n).mpr hn
    refine ⟨⟨ready,?_⟩,(Step.setState s n rfl).congr rfl rfl⟩
    refine Inv.ofRunning h.listed (fun _ => False.elim)
      (h.listed.not_mem_of_state (by rw [hn']; decide)) h.running (fun u hu => ?_) h.deferredReady
      rfl rfl rfl rfl rfl fun hk => ?_
    · exact (Option.some.inj (hn.symm.trans ((h.standby u).mp hu))).symm
    · exact absurd (h.idle.symm.trans hk) (by simp)
  | none =>
    obtain ⟨hcall,hnil⟩ | ⟨n,q,ready',hcall,-,hlisted,hoff⟩ :=
      h.listed.kiSelectReadyThread 0
    · rw [hcall]
      refine ⟨⟨ready,?_⟩,(Step.setState s s.idleThread (x := .running) rfl).congr rfl rfl⟩
      refine Inv.ofRunning h.listed (fun _ => False.elim) (fun p hp => ?_) h.running
        (fun u hu => absurd hu (hstandby u hn)) h.deferredReady rfl rfl rfl rfl hn fun _ => ?_
      · rw [hnil p (Nat.zero_le p)] at hp
        simp at hp
      · exact ⟨rfl,fun p => hnil p (Nat.zero_le p)⟩
    · rw [hcall]
      refine ⟨⟨ready',?_⟩,(Step.setState s n rfl).congr rfl rfl⟩
      refine Inv.ofRunning hlisted (fun u hu => hu) hoff h.running
        (fun u hu => absurd hu (hstandby u hn)) h.deferredReady rfl rfl rfl rfl hn fun hk => ?_
      exact absurd (h.idle.symm.trans hk) (by simp)

/-- A ready thread is taken from its list, changed and made ready again. -/
theorem Inv.requeue (h : Inv s ready none) (ht : s.states t = .ready)
    (hv : (f (s.threads t)).Valid) (hs : (f (s.threads t)).state=(s.threads t).state) :
    ∃ s', ((s.removeReady (s.threads t).priority.toNat t).modify t f).kiInsertDeferredReadyList
        t=some s' ∧ Leads (s.modify t f) s' := by
  have h0 := (h.listed.valid t).priority_nonneg
  have hmem : t∈ready (s.threads t).priority.toNat :=
    (h.listed.mem _ t).mpr ⟨ht,by omega,not_false⟩
  obtain ⟨ready₁,hlisted,hmem₁⟩ := h.listed.removeReady hmem
  have hoff : ∀ p, t∉ready₁ p := fun p hp => ((hmem₁ p t).mp hp).2 rfl
  obtain ⟨s₂,hs₂⟩ : ∃ s₂, s₂=(s.removeReady (s.threads t).priority.toNat t).modify t f :=
    ⟨_,rfl⟩
  have hlisted₂ : Listed s₂ ready₁ (fun u => False ∨ u=t) := by
    rw [hs₂]
    exact hlisted.modify hoff hv hs
  have hstates₂ : ∀ u, u≠t → s₂.states u=s.states u := by
    intro u hu
    rw [hs₂,modify_states,if_neg hu]
    rfl
  have hfields : s₂.currentThread=s.currentThread ∧ s₂.nextThread=s.nextThread ∧
      s₂.kiIdleSummary=s.kiIdleSummary := by
    rw [hs₂]
    exact ⟨rfl,rfl,rfl⟩
  obtain ⟨hf1,hf2,hf3⟩ := hfields
  have hdeferred : Inv (s₂.modify t (·.setState .deferredReady)) ready₁ (some t) := by
    refine Inv.ofDeferred hlisted₂ (fun u hu => hu.resolve_left id) hoff (fun u hu => ?_) ?_ ?_
      fun hk => ?_
    · rw [hstates₂ u hu,hf1,hf2]
      exact h.placed u
    · rw [hf1]
      intro hcur
      exact absurd (ht.symm.trans ((h.running t).mpr hcur)) (by decide)
    · rw [hf2]
      intro hnext
      exact absurd (ht.symm.trans ((h.standby t).mpr hnext)) (by decide)
    · rw [(h.idle (hf3 ▸ hk)).2.2] at hmem
      simp at hmem
  obtain ⟨s',hcall,h'⟩ := hdeferred.kiInsertDeferredReadyList
  have hstep₂ : Step (s.modify t f) s₂ := (Step.refl _).congr (by rw [hs₂]; rfl) (by rw [hs₂]; rfl)
  rw [← hs₂]
  exact ⟨s',hcall,h'.after (hstep₂.trans (Step.setState s₂ t rfl))⟩

/-- The next thread makes way for a ready thread of a higher priority. -/
theorem Inv.makeWay (h : Inv s ready none) (hn : s.nextThread=some t) (p : Nat) :
    ∃ s', (match s.kiSelectReadyThread p with
        | (none, s) => some s
        | (some new, s) =>
          ((s.modify new (·.setState .standby)).setNext (some new)).kiInsertDeferredReadyList t) =
          some s' ∧ Leads s s' := by
  have ht : s.states t = .standby := (h.standby t).mpr hn
  obtain hcall | ⟨n,q,ready₁,hcall,hready,hidle,hlisted,hoff⟩ := h.kiSelectReadyThread p
  · rw [hcall]
    exact ⟨s,rfl,h.leads⟩
  · rw [hcall]
    have hnt : n≠t := by
      rintro rfl
      exact absurd (hready.symm.trans ht) (by decide)
    obtain ⟨s₂,hs₂⟩ : ∃ s₂, s₂ =
      ((s.removeReady q n).modify n (·.setState .standby)).setNext (some n) := ⟨_,rfl⟩
    have hstates₂ : ∀ u, s₂.states u=if u=n then .standby else s.states u := by
      intro u
      rw [hs₂]
      exact setState_states (s.removeReady q n) n .standby u
    have hlisted₂ : Listed s₂ ready₁ fun _ => False := by
      rw [hs₂]
      exact (hlisted.setState hoff .standby).congr rfl rfl rfl (by simp)
    have hfields : s₂.currentThread=s.currentThread ∧ s₂.nextThread=some n ∧
        s₂.kiIdleSummary=s.kiIdleSummary := by
      rw [hs₂]
      exact ⟨rfl,rfl,rfl⟩
    obtain ⟨hf1,hf2,hf3⟩ := hfields
    have hdeferred : Inv (s₂.modify t (·.setState .deferredReady)) ready₁ (some t) := by
      refine Inv.ofDeferred hlisted₂ (fun _ => False.elim) (hlisted₂.not_mem_of_state ?_)
        (fun u hu => ?_) ?_ ?_ fun hk => ?_
      · rw [hstates₂,if_neg (Ne.symm hnt),ht]
        decide
      · have hr := h.placed u
        grind [Placed]
      · rw [hf1]
        intro hcur
        exact absurd (ht.symm.trans ((h.running t).mpr hcur)) (by decide)
      · rw [hf2]
        exact fun hc => hnt (Option.some.inj hc)
      · exact absurd (hidle.symm.trans (hf3.symm.trans hk)) (by simp)
    obtain ⟨s',hcall',h'⟩ := hdeferred.kiInsertDeferredReadyList
    have hstep₂ : Step s s₂ := by
      rw [hs₂]
      exact (Step.setState s n rfl).congr rfl rfl
    simp only [← hs₂]
    exact ⟨s',hcall',h'.after (hstep₂.trans (Step.setState s₂ t rfl))⟩

/-- The priority of a thread is set, with the decrement its caller has set before. -/
theorem Inv.kiSetPriorityThread (h : Inv s ready none) (t : τ) {dec p : Int} (hd : 0≤dec)
    (hdp : dec≤p) (hp : p≤highPriority) :
    ∃ s', (s.modify t (·.setDecrement dec)).kiSetPriorityThread t p=some s' ∧
      Leads (s.modify t fun th => (th.setDecrement dec).setPriority p) s' := by
  obtain ⟨hvalid,hprio⟩ := (h.listed.valid t).setBoth hd hdp hp
  obtain ⟨s₀,hs₀⟩ : ∃ s₀, s₀=s.modify t (·.setDecrement dec) := ⟨_,rfl⟩
  obtain ⟨s₁,hs₁⟩ : ∃ s₁, s₁=s.modify t fun th => (th.setDecrement dec).setPriority p := ⟨_,rfl⟩
  have hset : s₀.modify t (·.setPriority p)=s₁ := by
    rw [hs₀,hs₁]
    simp [Prcb.modify]
  have hold : s₀.threads t=(s.threads t).setDecrement dec := by rw [hs₀,modify_threads,if_pos rfl]
  have hstate : (s₀.threads t).state=s.states t := by rw [hold]; rfl
  rw [← hs₀,← hs₁,Prcb.kiSetPriorityThread]
  by_cases heq : (s₀.threads t).priority=p
  · have hsame : ((s.threads t).setDecrement dec).setPriority p=(s.threads t).setDecrement dec := by
      have hschar : schar p=((s.threads t).setDecrement dec).priority := by
        rw [← hold,heq]
        exact hprio
      rw [setPriority,hschar]
    have hthreads : s₀.threads=s₁.threads := by
      funext u
      rw [hs₁,hs₀,modify_threads,modify_threads,hsame]
    have h₀ : Inv s₀ ready none := by
      rw [hs₀]
      exact h.of_listed (h.listed.touch (hsame ▸ hvalid) rfl rfl) rfl
    rw [if_pos heq]
    exact ⟨s₀,rfl,⟨ready,h₀⟩,(Step.refl s₁).congr hthreads (by rw [hs₀,hs₁]; rfl)⟩
  · rw [if_neg heq,hstate]
    -- a thread that is on no list keeps its place
    have hplaced (ht : s.states t ≠ .ready) : Inv s₁ ready none := by
      rw [hs₁]
      exact h.of_listed (h.listed.modify (h.listed.not_mem_of_state ht) hvalid rfl) rfl
    have hfields : s₁.currentThread=s.currentThread ∧ s₁.nextThread=s.nextThread ∧
        s₀.currentThread=s.currentThread ∧ s₀.nextThread=s.nextThread := by
      rw [hs₁,hs₀]
      exact ⟨rfl,rfl,rfl,rfl⟩
    obtain ⟨hf1,hf2,hf3,hf4⟩ := hfields
    cases hst : s.states t with
    | ready =>
      have hqueue : (s₀.threads t).processReadyQueue=false := by
        rw [hold]
        exact (h.listed.valid t).not_queued
      have hremove : (s₀.removeReady (s₀.threads t).priority.toNat t).modify t (·.setPriority p) =
          (s.removeReady (s.threads t).priority.toNat t).modify t
            fun th => (th.setDecrement dec).setPriority p := by
        rw [hs₀]
        simp [Prcb.modify,Prcb.removeReady,setDecrement]
      simp only [hqueue,hremove]
      rw [hs₁]
      exact h.requeue hst hvalid rfl
    | standby =>
      have hn : s.nextThread=some t := (h.standby t).mp hst
      simp only [hf4,hn,if_true,hset]
      split
      · exact (hplaced (by rw [hst]; decide)).makeWay (hf2.trans hn) _
      · exact ⟨s₁,rfl,(hplaced (by rw [hst]; decide)).leads⟩
    | running =>
      have hc : s.currentThread=t := ((h.running t).mp hst).symm
      have h₁ := hplaced (by rw [hst]; decide)
      simp only [hf3,hc,if_true,hset]
      split
      · next hc =>
        exact ⟨_,rfl,h₁.selectNext hc.2 (p+1).toNat⟩
      · exact ⟨s₁,rfl,h₁.leads⟩
    | deferredReady => exact absurd ((h.deferredReady t).mp hst) (by simp)
    | initialized | terminated | waiting | transition | gateWait =>
      exact ⟨s₁,by rw [← hset],(hplaced (by rw [hst]; decide)).leads⟩

end Inv

end Prcb

/-- The scheduler steps. A thread is made ready after a wait, with the adjust of whoever woke it; a
thread leaves the processor for another state; a priority is set together with the decrement. The
last one stands for what others write to a thread. -/
inductive SchedCall (τ : Type*) where
  | readyThread (t : τ) (reason : AdjustReason) (increment waitStatus : Int)
  | swapThread (state : KThreadState)
  | setPriorityThread (t : τ) (decrement priority : Int)
  | adjustQuantumThread
  | quantumEnd
  | yieldExecution
  | write (t : τ) (quantum quantumReset : Int) (waitIrql : Nat) (disableBoost disableQuantum : Bool)

def SchedCall.raises {τ : Type*} [DecidableEq τ] (u : τ) : SchedCall τ → Bool
  | .setPriorityThread t _ priority => t=u ∧ lowRealtimePriority≤priority
  | _ => false

namespace Prcb
variable {τ : Type*} [DecidableEq τ]

def call (s : Prcb τ) : SchedCall τ → Option (Prcb τ)
  | .readyThread t reason increment waitStatus =>
    (s.modify t fun th => { th with
      adjustReason := reason, adjustIncrement := schar increment,
        waitStatus }).kiInsertDeferredReadyList
        t
  | .swapThread state => some (s.modify s.currentThread (·.setState state)).kiSwapThread
  | .setPriorityThread t decrement priority =>
    (s.modify t (·.setDecrement decrement)).kiSetPriorityThread t priority
  | .adjustQuantumThread => some (s.kiAdjustQuantumThread s.currentThread)
  | .quantumEnd => some s.kiQuantumEnd
  | .yieldExecution => some s.ntYieldExecution
  | .write t quantum quantumReset waitIrql disableBoost disableQuantum =>
    some (s.modify t fun th => { th with
      quantum := schar quantum, quantumReset := schar quantumReset, waitIrql, disableBoost,
      disableQuantum })

/-- Only a thread that waits is made ready, the idle thread does not leave the processor, and the
decrement is not above the priority. -/
def legal (s : Prcb τ) : SchedCall τ → Bool
  | .readyThread t .. => !(s.states t).active
  | .swapThread state => !state.active && s.currentThread≠s.idleThread
  | .setPriorityThread _ decrement priority =>
    0≤decrement ∧ decrement≤priority ∧ priority≤highPriority
  | _ => true

def leaves (s : Prcb τ) (u : τ) : SchedCall τ → Bool
  | .swapThread _ => u=s.currentThread
  | _ => false

def run (s : Prcb τ) : List (SchedCall τ) → Option (Prcb τ)
  | [] => some s
  | c::calls => (s.call c).bind fun s' => s'.run calls

def legalRun (s : Prcb τ) : List (SchedCall τ) → Bool
  | [] => true
  | c::calls => s.legal c && (s.call c).all fun s' => s'.legalRun calls

structure Initial (s : Prcb τ) : Prop where
  valid : ∀ t, (s.threads t).Valid
  running : s.states s.currentThread = .running
  inactive : ∀ t, t≠s.currentThread → (s.states t).active=false
  next : s.nextThread=none
  empty : ∀ p, p< maximumPriority → IsList s.links (.head p) []
  summary : s.readySummary=0
  idle : s.kiIdleSummary → s.currentThread=s.idleThread

section Runs
variable {s s' : Prcb τ} {ready : Nat → List τ} {c : SchedCall τ}

theorem Initial.inv (h : Initial s) : Inv s (fun _ => []) none := by
  have hother : ∀ t x, KThreadState.active x → x ≠ .running → s.states t≠x := by
    intro t x hx hrun ht
    by_cases htc : t=s.currentThread
    · rw [htc,h.running] at ht
      exact hrun ht.symm
    · have hin := h.inactive t htc
      rw [ht,hx] at hin
      exact Bool.noConfusion hin
  refine ⟨⟨⟨h.empty,fun p => by simp [h.summary],by simp,by simp⟩,
    fun p t => ?_,h.valid⟩,fun t => ?_,fun t => ?_,fun t => ?_,fun hk => ?_⟩
  · simp [hother t .ready rfl]
  · constructor
    · intro ht
      by_contra htc
      have hin := h.inactive t htc
      rw [ht] at hin
      exact Bool.noConfusion hin
    · rintro rfl
      exact h.running
  · simp [hother t .standby rfl,h.next]
  · simp [hother t .deferredReady rfl]
  · exact ⟨h.next,h.idle hk,fun _ => rfl⟩

theorem Inv.leaving (h : Inv s ready none) (hx : x.active=false)
    (hidle : s.currentThread≠s.idleThread) :
    Leaving (s.modify s.currentThread (·.setState x)) ready := by
  have hcur : s.states s.currentThread = .running := (h.running _).mpr rfl
  have hstates := setState_states s s.currentThread x
  have hne : ∀ y, KThreadState.active y → x≠y := by
    intro y hy hxy
    rw [hxy,hy] at hx
    exact Bool.noConfusion hx
  refine ⟨(h.listed.setState (h.listed.not_mem_of_state (by rw [hcur]; decide)) x).congr rfl rfl rfl
    fun u => ?_,fun u hu => ?_,fun u => ?_,fun u hu => ?_,?_⟩
  · simp [hne .ready rfl]
  · rw [hstates] at hu
    split at hu
    · exact hne .running rfl hu
    · next huc => exact huc ((h.running u).mp hu)
  · rw [hstates]
    split
    · next huc =>
      have hns : s.nextThread≠some u := by
        intro hn
        have hsb := (h.standby u).mpr hn
        rw [huc,hcur] at hsb
        exact KThreadState.noConfusion hsb
      exact ⟨fun hu => absurd hu (hne .standby rfl),fun hu => absurd hu hns⟩
    · exact h.standby u
  · rw [hstates] at hu
    split at hu
    · exact hne .deferredReady rfl hu
    · exact absurd ((h.deferredReady u).mp hu) (by simp)
  · by_contra hk
    rw [Bool.not_eq_false] at hk
    exact hidle (h.idle hk).2.1

/-- A thread that waits becomes the deferred thread. -/
theorem Inv.toDeferred (h : Inv s ready none) {t : τ} (ht : (s.states t).active=false) :
    Inv (s.modify t (·.setState .deferredReady)) ready (some t) := by
  have hne : ∀ y, KThreadState.active y → s.states t≠y := by
    intro y hy hty
    rw [hty,hy] at ht
    exact Bool.noConfusion ht
  refine .ofDeferred h.listed (fun _ => False.elim)
    (h.listed.not_mem_of_state (hne .ready rfl)) (fun u _ => h.placed u) (fun htc => ?_)
    (fun hn => ?_) h.idle
  · exact hne .running rfl ((h.running t).mpr htc)
  · exact hne .standby rfl ((h.standby t).mpr hn)

structure Moves (s s' : Prcb τ) (c : SchedCall τ) : Prop where
  dynamic : ∀ u, (s.threads u).Dynamic → c.raises u=false → (s'.threads u).Dynamic
  active : ∀ u, (s.states u).active → s.leaves u c=false → (s'.states u).active

theorem Leads.moves (h : Leads s s') (hcall : s.call c=some s') (hv : ∀ t, (s.threads t).Valid) :
    ∃ s' ready', s.call c=some s' ∧ Inv s' ready' none ∧ Moves s s' c := by
  obtain ⟨ready',h'⟩ := h.inv
  exact ⟨s',ready',hcall,h',fun u hu _ => (h.step.keeps u).dynamic (hv u) hu,
    fun u hu _ => h.step.active u hu⟩

theorem Inv.call (h : Inv s ready none) (hl : s.legal c) :
    ∃ s' ready', s.call c=some s' ∧ Inv s' ready' none ∧ Moves s s' c := by
  have hv := h.listed.valid
  cases c with
  | readyThread t reason increment waitStatus =>
    have ht : (s.states t).active=false := by simpa [legal] using hl
    obtain ⟨h₁,hstep₁⟩ := h.touch t (f := fun th => { th with
      adjustReason := reason, adjustIncrement := schar increment, waitStatus })
      (.of_eq rfl rfl rfl rfl) rfl rfl
    have ht₁ : ((s.modify t fun th => { th with
        adjustReason := reason, adjustIncrement := schar increment, waitStatus }).states t).active =
        false := by
      rw [modify_states,if_pos rfl]
      exact ht
    obtain ⟨s',hcall,h'⟩ := (h₁.toDeferred ht₁).kiInsertDeferredReadyList
    exact (h'.after (hstep₁.trans (Step.setState _ t rfl))).moves hcall hv
  | swapThread x =>
    obtain ⟨hx,hidle⟩ : x.active=false ∧ s.currentThread≠s.idleThread := by
      simpa [legal] using hl
    obtain ⟨⟨ready',h'⟩,hstep'⟩ := (h.leaving hx hidle).kiSwapThread
    refine ⟨_,ready',rfl,h',fun u hu _ => ?_,fun u hu hne => ?_⟩
    · have hkeep := (setState_keeps (s.threads s.currentThread) x)
      refine (hstep'.keeps u).dynamic ?_ ?_
      · rw [modify_threads]
        split
        · exact hkeep.valid (hv _)
        · exact hv u
      · rw [modify_threads]
        split
        · next huc => exact hkeep.dynamic (hv _) (huc ▸ hu)
        · exact hu
    · refine hstep'.active u ?_
      have huc : u≠s.currentThread := by simpa [leaves] using hne
      rw [setState_states,if_neg huc]
      exact hu
  | setPriorityThread t dec p =>
    obtain ⟨hd,hdp,hp⟩ : 0≤dec ∧ dec≤p ∧ p≤highPriority := by simpa [legal] using hl
    obtain ⟨s',hcall,⟨ready',h'⟩,hstep'⟩ := h.kiSetPriorityThread t hd hdp hp
    obtain ⟨hvalid,hprio⟩ := (hv t).setBoth hd hdp hp
    refine ⟨s',ready',hcall,h',fun u hu hr => ?_,fun u hu _ => ?_⟩
    · refine (hstep'.keeps u).dynamic ?_ ?_
      · rw [modify_threads]
        split
        · exact hvalid
        · exact hv u
      · rw [modify_threads]
        split
        · next hut =>
          have hlow : p<lowRealtimePriority := by simpa [SchedCall.raises,hut] using hr
          exact ⟨hprio.trans_lt hlow,(hut ▸ hu).2⟩
        · exact hu
    · refine hstep'.active u ?_
      rw [modify_states]
      split
      · next hut => exact hut ▸ hu
      · exact hu
  | adjustQuantumThread => exact h.kiAdjustQuantumThread.moves rfl hv
  | quantumEnd => exact h.kiQuantumEnd.moves rfl hv
  | yieldExecution => exact h.ntYieldExecution.moves rfl hv
  | write t quantum quantumReset waitIrql disableBoost disableQuantum =>
    obtain ⟨h',hstep'⟩ := h.touch t (f := fun th => { th with
      quantum := schar quantum, quantumReset := schar quantumReset, waitIrql, disableBoost,
      disableQuantum }) (.of_eq rfl rfl rfl rfl) rfl rfl
    exact Leads.moves ⟨⟨ready,h'⟩,hstep'⟩ rfl hv

/-- A whole run. -/
theorem Inv.run (h : Inv s ready none) (calls : List (SchedCall τ)) (hl : s.legalRun calls) :
    ∃ t ready', s.run calls=some t ∧ Inv t ready' none ∧
      ∀ u, (s.threads u).Dynamic → (∀ c∈calls, c.raises u=false) → (t.threads u).Dynamic := by
  induction calls generalizing s ready with
  | nil => exact ⟨s,ready,rfl,h,fun u hu _ => hu⟩
  | cons c calls ih =>
    obtain ⟨hc,hcalls⟩ : s.legal c ∧ (s.call c).all fun s' => s'.legalRun calls := by
      simpa [legalRun] using hl
    obtain ⟨s₁,ready₁,hcall,h₁,hmoves⟩ := h.call hc
    have hl₁ : s₁.legalRun calls := by simpa [hcall] using hcalls
    obtain ⟨t,ready',hrun,ht,hdyn⟩ := ih h₁ hl₁
    refine ⟨t,ready',?_,ht,fun u hu hr => ?_⟩
    · rw [Prcb.run,hcall]
      exact hrun
    · exact hdyn u (hmoves.dynamic u hu (hr c (by simp))) fun c' hc' => hr c' (by simp [hc'])

/-- From a state with one running thread, in every run the bits of the summary say which ready
lists have threads, the ready threads are on the list of their priority, one thread runs and one at
most is chosen to run next, and no thread gets lost or comes to a real-time priority by a boost. -/
theorem ready_queues (hs : Initial s) (calls : List (SchedCall τ)) (hl : s.legalRun calls) :
    ∃ t ready', s.run calls=some t ∧ Inv t ready' none ∧
      (∀ u, (s.threads u).Dynamic → (∀ c∈calls, c.raises u=false) →
        (t.threads u).priority<lowRealtimePriority) ∧
      ∀ c, t.legal c → ∃ t', t.call c=some t' ∧
        ∀ u, (t.states u).active → t.leaves u c=false → (t'.states u).active := by
  obtain ⟨t,ready',hrun,ht,hdyn⟩ := hs.inv.run calls hl
  refine ⟨t,ready',hrun,ht,fun u hu hr => (hdyn u hu hr).1,fun c hc => ?_⟩
  obtain ⟨t',-,hcall,-,hmoves⟩ := ht.call hc
  exact ⟨t',hcall,hmoves.active⟩

end Runs

def somePrcb : Prcb (Fin 4) where
  threads t :=
    { state := if t=0 then .running else if t=3 then .initialized else .waiting
      priority := 8-t, basePriority := 8-t, priorityDecrement := 0
      adjustReason := .adjustNone, adjustIncrement := 0, quantum := 6, quantumReset := 6
      waitStatus := 0, waitIrql := 0
      disableBoost := false, disableQuantum := false, preempted := false
      processReadyQueue := false }
  links := ⟨id,id⟩
  readySummary := 0
  currentThread := 0
  nextThread := none
  idleThread := 3
  kiIdleSummary := false

theorem somePrcb_initial : Initial somePrcb where
  valid t := by
    refine ⟨?_,?_,?_,?_,?_,?_,rfl⟩ <;> revert t <;> decide
  running := rfl
  inactive := by decide
  next := rfl
  empty p _ := ⟨by simp,by simp [Linked,somePrcb]⟩
  summary := rfl
  idle := by decide

def someSchedCalls : List (SchedCall (Fin 4)) :=
  [.readyThread 1 .adjustUnwait 2 0,.readyThread 2 .adjustBoost 5 0,.setPriorityThread 0 0 3,
    .adjustQuantumThread,.yieldExecution,.write 1 0 6 0 false false,.quantumEnd,
    .swapThread .waiting]

/-- A run with every kind of step. -/
theorem ready_queues_calls : somePrcb.legalRun someSchedCalls ∧
    ∃ t ready', somePrcb.run someSchedCalls=some t ∧ Inv t ready' none := by
  have hl : somePrcb.legalRun someSchedCalls := by decide +kernel
  obtain ⟨t,ready',hrun,ht,-⟩ := ready_queues somePrcb_initial someSchedCalls hl
  exact ⟨hl,t,ready',hrun,ht⟩

end Prcb

end Odyssey.Ke
