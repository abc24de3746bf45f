import Odyssey.Lib.GuardedRuns

/-! Device queues (`ke/devqueue.c`), without the assertions that a queue is busy. -/
namespace Odyssey.Ke
open List Function

/-- A queue with the entries that are used with it. -/
structure DeviceQueue (ε : Type*) where
  list : List ε
  busy : Bool
  inserted : ε → Bool
  sortKey : ε → Nat

namespace DeviceQueue
variable {ε : Type*} [DecidableEq ε] (q : DeviceQueue ε)

def keInitializeDeviceQueue (sortKey : ε → Nat) : DeviceQueue ε := ⟨[],false,fun _ => false,sortKey⟩

def keInsertDeviceQueue (e : ε) : DeviceQueue ε × Bool :=
  if !q.busy then ({ q with busy := true, inserted := update q.inserted e false }, false)
  else ({ q with list := q.list++[e], inserted := update q.inserted e true }, true)

/-- The loop for an entry with a greater key; the last entry has one. -/
def insertLoop (key : ε → Nat) (e : ε) (sortKey : Nat) : List ε → List ε
  | [] => [e]
  | x::l => if sortKey ≥ key x then x::insertLoop key e sortKey l else e::x::l

def keInsertByKeyDeviceQueue (e : ε) (sortKey : Nat) : DeviceQueue ε × Bool :=
  let q := { q with sortKey := update q.sortKey e sortKey }
  if !q.busy then ({ q with busy := true }, false)
  else
    match q.list.getLast? with
    | none => ({ q with list := [e] }, true)
    | some last =>
      if sortKey<q.sortKey last then
        ({ q with list := insertLoop q.sortKey e sortKey q.list }, true)
      else ({ q with list := q.list++[e] }, true)

def removeEntry (e : ε) : DeviceQueue ε :=
  { q with list := q.list.erase e, inserted := update q.inserted e false }

def keRemoveDeviceQueue : DeviceQueue ε × Option ε :=
  match q.list with
  | [] => ({ q with busy := false }, none)
  | e::_ => (q.removeEntry e, some e)

/-- The search for a key that is not lower ends at the last entry. -/
def keRemoveByKeyDeviceQueue (sortKey : Nat) : DeviceQueue ε × Option ε :=
  match q.list with
  | [] => ({ q with busy := false }, none)
  | first::l =>
    if q.sortKey ((first::l).getLast (by simp))≤ sortKey then (q.removeEntry first, some first)
    else
      match (first::l).find? fun x => sortKey≤q.sortKey x with
      | none => (q, none)
      | some e => (q.removeEntry e, some e)

def keRemoveByKeyDeviceQueueIfBusy (sortKey : Nat) : DeviceQueue ε × Option ε :=
  if !q.busy || q.list.isEmpty then ({ q with busy := false }, none)
  else q.keRemoveByKeyDeviceQueue sortKey

def keRemoveEntryDeviceQueue (e : ε) : DeviceQueue ε × Bool :=
  if q.inserted e then (q.removeEntry e, true) else (q, false)

end DeviceQueue

open DeviceQueue

inductive QueueCall (ε : Type*) where
  | insert (e : ε)
  | insertByKey (e : ε) (sortKey : Nat)
  | remove
  | removeByKey (sortKey : Nat)
  | removeByKeyIfBusy (sortKey : Nat)
  | removeEntry (e : ε)

/-- A queue, the entries that calls have put on its list, and those they have returned. -/
structure QueueHistory (ε : Type*) where
  queue : DeviceQueue ε
  queued : List ε
  returned : List ε

namespace QueueHistory
variable {ε : Type*} [DecidableEq ε] (s : QueueHistory ε)

def put (e : ε) (r : DeviceQueue ε × Bool) : QueueHistory ε :=
  ⟨r.1,if r.2 then e::s.queued else s.queued,s.returned⟩

def take (r : DeviceQueue ε × Option ε) : QueueHistory ε :=
  ⟨r.1,s.queued,r.2.toList++s.returned⟩

def call : QueueCall ε → QueueHistory ε
  | .insert e => s.put e (s.queue.keInsertDeviceQueue e)
  | .insertByKey e sortKey => s.put e (s.queue.keInsertByKeyDeviceQueue e sortKey)
  | .remove => s.take s.queue.keRemoveDeviceQueue
  | .removeByKey sortKey => s.take (s.queue.keRemoveByKeyDeviceQueue sortKey)
  | .removeByKeyIfBusy sortKey => s.take (s.queue.keRemoveByKeyDeviceQueueIfBusy sortKey)
  | .removeEntry e =>
    let (q, removed) := s.queue.keRemoveEntryDeviceQueue e
    s.take (q, if removed then some e else none)

def legal : QueueCall ε → Bool
  | .insert e | .insertByKey e _ => e∉s.queue.list
  | _ => true

def idleAt : QueueCall ε → Bool
  | .insertByKey _ _ => !s.queue.busy
  | _ => true

structure Consistent (s : QueueHistory ε) : Prop where
  inserted : ∀ e, s.queue.inserted e=true ↔ e∈s.queue.list
  busy : s.queue.list≠[] → s.queue.busy=true
  nodup : s.queue.list.Nodup
  accounted : ∀ e, s.queued.count e=s.returned.count e+s.queue.list.count e
  removes : ∀ e, ((s.queue.keRemoveEntryDeviceQueue e).2=true ↔ e∈s.queue.list) ∧
    (s.queue.keRemoveEntryDeviceQueue e).1.list=s.queue.list.erase e

variable {s : QueueHistory ε} {e : ε}

theorem Consistent.of_list (h1 : ∀ e, s.queue.inserted e=true ↔ e∈s.queue.list)
    (h2 : s.queue.list≠[] → s.queue.busy=true) (h3 : s.queue.list.Nodup)
    (h4 : ∀ e, s.queued.count e=s.returned.count e+s.queue.list.count e) : s.Consistent := by
  refine ⟨h1,h2,h3,h4,fun e => ?_⟩
  rw [← h1,keRemoveEntryDeviceQueue]
  cases he : s.queue.inserted e with
  | true => exact ⟨by simp,rfl⟩
  | false =>
    refine ⟨by simp,(erase_of_not_mem fun hm => ?_).symm⟩
    rw [(h1 e).mpr hm] at he
    cases he

omit [DecidableEq ε] in
theorem mem_insertLoop {key : ε → Nat} {k : Nat} (l : List ε) : e∈insertLoop key e k l := by
  induction l with
  | nil => simp [insertLoop]
  | cons x l ih =>
    rw [insertLoop]
    split
    · exact mem_cons_of_mem x ih
    · simp

/-- An entry that is inserted by its key into a busy queue keeps its flag. -/
theorem keInsertByKeyDeviceQueue_busy {q : DeviceQueue ε} (hb : q.busy=true) (k : Nat) :
    e∈(q.keInsertByKeyDeviceQueue e k).1.list ∧
      (q.keInsertByKeyDeviceQueue e k).1.inserted e=q.inserted e := by
  simp only [keInsertByKeyDeviceQueue,hb,Bool.not_true,Bool.false_eq_true,if_false]
  split
  · simp
  · split
    · exact ⟨mem_insertLoop _,rfl⟩
    · simp

namespace Consistent
variable (h : s.Consistent)
include h

theorem nil_of_idle (hb : s.queue.busy=false) : s.queue.list=[] := by
  by_contra hne
  rw [h.busy hne] at hb
  cases hb

theorem idle (hnil : s.queue.list=[]) :
    (s.take ({ s.queue with busy := false }, none)).Consistent :=
  .of_list h.inserted (absurd hnil) h.nodup h.accounted

theorem take (he : e∈s.queue.list) : (s.take (s.queue.removeEntry e, some e)).Consistent := by
  refine .of_list (fun x => ?_) (fun _ => h.busy (ne_nil_of_mem he)) (h.nodup.erase e) fun x => ?_
  · simp only [QueueHistory.take,DeviceQueue.removeEntry,update_apply,h.nodup.mem_erase_iff]
    by_cases hx : x=e
    · simp [hx]
    · simp [hx,h.inserted]
  · have hcount := h.accounted x
    have hpos := count_pos_iff.mpr he
    simp only [QueueHistory.take,DeviceQueue.removeEntry,Option.toList_some,singleton_append,
      count_cons,count_erase,beq_iff_eq]
    by_cases hx : e=x
    · subst hx
      rw [if_pos rfl]
      omega
    · rw [if_neg hx]
      omega

theorem removeByKey (k : Nat) : (s.take (s.queue.keRemoveByKeyDeviceQueue k)).Consistent := by
  rw [keRemoveByKeyDeviceQueue]
  split
  · next hnil => exact h.idle hnil
  · next first l hl =>
    split
    · exact h.take (hl ▸ mem_cons_self)
    · next hlast =>
      split
      · next hnone =>
        have := find?_eq_none.mp hnone _ (getLast_mem (cons_ne_nil first l))
        simp only [decide_eq_true_eq] at this
        omega
      · next e he => exact h.take (hl ▸ mem_of_find?_eq_some he)

theorem insert (hnot : e∉s.queue.list) : (s.call (.insert e)).Consistent := by
  rw [QueueHistory.call,keInsertDeviceQueue]
  cases hb : s.queue.busy with
  | false =>
    refine .of_list (fun x => ?_) (fun _ => rfl) h.nodup h.accounted
    have hx := h.inserted x
    by_cases hxe : x=e
    · simpa [put,hxe] using hnot
    · simpa [put,hxe] using hx
  | true =>
    refine .of_list (fun x => ?_) (fun _ => rfl) ?_ fun x => ?_
    · by_cases hxe : x=e
      · simp [put,hxe]
      · simp [put,hxe,h.inserted]
    · exact nodup_append_comm.mp (nodup_cons.mpr ⟨hnot,h.nodup⟩)
    · have hcount := h.accounted x
      simp only [put,Bool.not_true,Bool.false_eq_true,if_false,if_true,count_cons,count_append,
        count_nil]
      omega

/-- Each call keeps the queue consistent, but for an insertion by key into a busy queue. -/
theorem call {c : QueueCall ε} (hl : s.legal c) : (s.call c).Consistent ↔ s.idleAt c := by
  cases c with
  | insert e => exact iff_of_true (h.insert (of_decide_eq_true hl)) rfl
  | insertByKey e k =>
    have hnot : e∉s.queue.list := of_decide_eq_true hl
    cases hb : s.queue.busy with
    | false =>
      refine iff_of_true ?_ (by simp [idleAt,hb])
      simp only [QueueHistory.call,keInsertByKeyDeviceQueue,hb]
      exact .of_list h.inserted (fun _ => rfl) h.nodup h.accounted
    | true =>
      refine iff_of_false (fun hcall => hnot ?_) (by simp [idleAt,hb])
      obtain ⟨hmem,hflag⟩ := keInsertByKeyDeviceQueue_busy hb k
      exact (h.inserted e).mp (hflag ▸ (hcall.inserted e).mpr hmem)
  | remove =>
    refine iff_of_true ?_ rfl
    rw [QueueHistory.call,keRemoveDeviceQueue]
    split
    · next hnil => exact h.idle hnil
    · next e l hl => exact h.take (hl ▸ mem_cons_self)
  | removeByKey k => exact iff_of_true (h.removeByKey k) rfl
  | removeByKeyIfBusy k =>
    refine iff_of_true ?_ rfl
    rw [QueueHistory.call,keRemoveByKeyDeviceQueueIfBusy]
    split
    · next hidle =>
      refine h.idle ?_
      obtain hb | hnil := Bool.or_eq_true_iff.mp hidle
      · exact h.nil_of_idle (by simpa using hb)
      · exact isEmpty_iff.mp hnil
    · exact h.removeByKey k
  | removeEntry e =>
    refine iff_of_true ?_ rfl
    by_cases hin : s.queue.inserted e=true
    · simp only [QueueHistory.call,keRemoveEntryDeviceQueue,if_pos hin]
      exact h.take ((h.inserted e).mp hin)
    · simp only [QueueHistory.call,keRemoveEntryDeviceQueue,if_neg hin]
      exact h

end Consistent

open GuardedRuns

def new (sortKey : ε → Nat) : QueueHistory ε := ⟨keInitializeDeviceQueue sortKey,[],[]⟩

def step (s : QueueHistory ε) (c : QueueCall ε) : Option (QueueHistory ε) := some (s.call c)

theorem consistent_iff (sortKey : ε → Nat) (calls : List (QueueCall ε))
    (hlegal : Throughout step (fun s c => s.legal c) (new sortKey) calls) :
    Always step Consistent (new sortKey) calls ↔
      Throughout step (fun s c => s.idleAt c) (new sortKey) calls := by
  have hnew : (new sortKey).Consistent :=
    .of_list (by simp [new,keInitializeDeviceQueue]) (absurd rfl) nodup_nil
      (by simp [new,keInitializeDeviceQueue])
  have hkeep : ∀ s c, Consistent s → s.legal c → s.idleAt c →
      ∃ s' : QueueHistory ε, step s c=some s' ∧ s'.Consistent := fun s c h hl hidle =>
    ⟨s.call c,rfl,(h.call hl).mpr hidle⟩
  refine ⟨fun h => h.throughout hkeep (fun s c s' h hl hbusy hs hs' => ?_) hnew hlegal,
    fun h => h.always (fun _ => id) hkeep hnew hlegal⟩
  cases hs
  exact hbusy ((h.call hl).mp hs')

theorem consistent_two : Always step Consistent (new id) [.insert 1,.insert 2,.remove] :=
  (consistent_iff id [.insert 1,.insert 2,.remove] (by decide)).2 (by decide)

/-- `KeRemoveEntryDeviceQueue` does not find an entry that was inserted by its key. -/
theorem not_consistent_key :
    Throughout step (fun s c => s.legal c) (new id) [.insert 1,.insertByKey 2 5] ∧
      ¬Always step Consistent (new id) [.insert 1,.insertByKey 2 5] := by
  refine ⟨by decide,fun ⟨_,_,h1,_,_,h2,h⟩ => ?_⟩
  cases h1
  cases h2
  exact absurd (h.inserted 2) (by decide)

end QueueHistory

end Odyssey.Ke
