import Odyssey.Lib.OrderedMap
import Odyssey.Rtl.AvlTable

/-! The generic tables of `lib/rtl/avltable.c` are finite ordered maps: every call has the
effect and the results of the call on the map of the elements. -/
namespace Odyssey.Avl
open AvlTree OrderedMap List

variable {α : Type} (compareRoutine : α → α → Ordering)

def rtlLookupElementGenericTableFullAvl (g : GenericTable α) (buffer : α) :
    Option (Addr × TableSearchResult × Addr) := do
  let (searchResult, nodeOrParent) ← g.find compareRoutine buffer
  if searchResult ≠ .foundNode then some (0, searchResult, nodeOrParent)
  else some (userDataAddress nodeOrParent, searchResult, nodeOrParent)

def rtlLookupElementGenericTableAvl (g : GenericTable α) (buffer : α) : Option Addr :=
  (rtlLookupElementGenericTableFullAvl compareRoutine g buffer).map Prod.fst

/-- A call of the table interface. An insertion carries the node that `AllocateRoutine`
returns if it is asked. -/
inductive Request (α : Type) where
  | insert (buffer : α) (newNode : Addr)
  | delete (buffer : α)
  | lookup (buffer : α)

/-- What a call returns: a pointer (NULL is 0) and `NewElement`, a `BOOLEAN`, or a pointer. -/
inductive Reply where
  | insert (element : Addr) (newElement : Bool)
  | delete (found : Bool)
  | lookup (element : Addr)
  deriving DecidableEq, Repr

def Request.run (g : GenericTable α) : Request α → Option (GenericTable α × Reply)
  | .insert buffer newNode => do
    let (g, element, newElement) ← rtlInsertElementGenericTableAvl compareRoutine g buffer newNode
    return (g, .insert element newElement)
  | .delete buffer => do
    let (g, found) ← rtlDeleteElementGenericTableAvl compareRoutine g buffer
    return (g, .delete found)
  | .lookup buffer => do
    let element ← rtlLookupElementGenericTableAvl compareRoutine g buffer
    return (g, .lookup element)

def runRequests (g : GenericTable α) : List (Request α) → Option (GenericTable α × List Reply)
  | [] => some (g, [])
  | r::requests => do
    let (g, reply) ← r.run compareRoutine g
    let (g, replies) ← runRequests g requests
    return (g, reply::replies)

def Request.allocates (g : GenericTable α) : Request α → Bool
  | .insert _ newNode => newNode=0 ∨ newNode≠g.balancedRoot ∧ newNode∉g.allocated
  | _ => true

def requestsSound (g : GenericTable α) : List (Request α) → Bool
  | [] => true
  | r::requests => r.allocates g &&
    ((r.run compareRoutine g).all fun x => requestsSound x.1 requests)

section Map
variable {compareRoutine} [Std.TransCmp compareRoutine]

def Request.spec (m : OrdMap Addr compareRoutine) : Request α → OrdMap Addr compareRoutine × Reply
  | .insert buffer newNode =>
    match h : m.lookup buffer with
    | some e => (m, .insert (userDataAddress e.1) false)
    | none =>
      if newNode=0 then (m, .insert 0 false)
      else (m.insert buffer newNode h, .insert (userDataAddress newNode) true)
  | .delete buffer => (m.erase buffer, .delete (m.lookup buffer).isSome)
  | .lookup buffer => (m, .lookup ((m.lookup buffer).elim 0 fun e => userDataAddress e.1))

def specRequests (m : OrdMap Addr compareRoutine) :
    List (Request α) → OrdMap Addr compareRoutine × List Reply
  | [] => (m, [])
  | r::requests =>
    ((specRequests (r.spec m).1 requests).1, (r.spec m).2::(specRequests (r.spec m).1 requests).2)

/-- The elements of a table in the order of its tree, with the user data they hold. -/
structure Refines (g : GenericTable α) (m : OrdMap Addr compareRoutine) (t : BTree Addr) :
    Prop where
  holds : Holds compareRoutine g t
  entries : m.entries=t.toList.map fun a => (a, g.userData a)

section Steps
variable {g : GenericTable α} {m : OrdMap Addr compareRoutine} {t : BTree Addr} {buffer : α}
  {e : Addr × α}

omit [Std.TransCmp compareRoutine] in
theorem Refines.entries_split (h : Refines g m t) {A B : List Addr} {a : Addr}
    (ht : t.toList=A++a::B) :
    m.entries=(A.map fun b => (b, g.userData b))++(a, g.userData a) ::
      B.map fun b => (b, g.userData b) := by
  rw [h.entries,ht,map_append,map_cons]

/-- The search in the table and in the map. -/
theorem Refines.find (h : Refines g m t) (buffer : α) :
    (∃ a A B, t.toList=A++a::B ∧ g.find compareRoutine buffer=some (.foundNode, a) ∧
      compareRoutine buffer (g.userData a) = .eq ∧ m.lookup buffer=some (a, g.userData a)) ∨
    ∃ q node, g.find compareRoutine buffer=some (placeResult q, node) ∧ t=plug .nil q ∧
      (q≠[] → node=top g.balancedRoot q) ∧
      SearchPath (fun a => compareRoutine buffer (g.userData a)) q ∧ m.lookup buffer=none ∧
      m.entries=((Path.before q).map fun b => (b, g.userData b)) ++
        (Path.after q).map (fun b => (b, g.userData b)) ∧
      (∀ e∈(Path.before q).map (fun b => (b, g.userData b)), compareRoutine e.2 buffer = .lt) ∧
      ∀ e∈(Path.after q).map (fun b => (b, g.userData b)), compareRoutine buffer e.2 = .lt := by
  obtain ⟨a,ha,hf,hc⟩ | ⟨q,node,hf,rfl,hnode,hs⟩ := h.holds.find buffer
  · obtain ⟨A,B,hAB⟩ := append_of_mem ha
    exact .inl ⟨a,A,B,hAB,hf,hc,OrdMap.lookup_eq_some (h.entries_split hAB) hc⟩
  · have hlist : (plug .nil q).toList=Path.before q++Path.after q := by
      simp [toList_plug,BTree.toList]
    obtain ⟨hbefore,hafter⟩ := hs.split (hlist ▸ h.holds.sorted)
    have hentries := h.entries
    rw [hlist,map_append] at hentries
    have hA : ∀ e∈(Path.before q).map (fun b => (b, g.userData b)),
        compareRoutine e.2 buffer = .lt := by
      intro e he
      obtain ⟨b,hb,rfl⟩ := mem_map.mp he
      exact hbefore b hb
    have hB : ∀ e∈(Path.after q).map (fun b => (b, g.userData b)),
        compareRoutine buffer e.2 = .lt := by
      intro e he
      obtain ⟨b,hb,rfl⟩ := mem_map.mp he
      exact hafter b hb
    exact .inr ⟨q,node,hf,rfl,hnode,hs,OrdMap.lookup_eq_none hentries hA hB,hentries,hA,hB⟩

theorem Request.spec_insert_found (newNode : Addr) (h : m.lookup buffer=some e) :
    Request.spec m (.insert buffer newNode)=(m, .insert (userDataAddress e.1) false) := by
  simp only [Request.spec]
  split
  · next e' he' =>
    obtain rfl : e=e' := Option.some.inj (h.symm.trans he')
    rfl
  · next hnone =>
    rw [hnone] at h
    cases h

theorem Request.spec_insert_new (newNode : Addr) (h : m.lookup buffer=none) :
    Request.spec m (.insert buffer newNode)=if newNode=0 then (m, .insert 0 false)
      else (m.insert buffer newNode h, .insert (userDataAddress newNode) true) := by
  simp only [Request.spec]
  split
  · next e he =>
    rw [he] at h
    cases h
  · rfl

section
variable (h : Refines g m t)
include h

/-- With an equal element in the table, an insertion changes nothing. -/
theorem Refines.insert_found
    (hl : m.lookup buffer=some e) (newNode : Addr) :
    rtlInsertElementGenericTableAvl compareRoutine g buffer newNode =
      some (g, userDataAddress e.1, false) := by
  obtain ⟨a,A,B,-,hf,-,hl'⟩ | ⟨q,node,-,-,-,-,hl',-⟩ := h.find buffer
  · obtain rfl := Option.some.inj (hl.symm.trans hl')
    simp [rtlInsertElementGenericTableAvl,hf,rtlInsertElementGenericTableFullAvl]
  · rw [hl] at hl'
    cases hl'

theorem Refines.insert (buffer : α) {newNode : Addr}
    (hn : newNode=0 ∨ newNode≠g.balancedRoot ∧ newNode∉g.allocated) :
    ∃ g' t', Request.run compareRoutine g (.insert buffer newNode) =
        some (g', (Request.spec m (.insert buffer newNode)).2) ∧
      Refines g' (Request.spec m (.insert buffer newNode)).1 t' := by
  obtain ⟨a,A,B,-,hf,-,hl⟩ | ⟨q,node,hf,rfl,hnode,hs,hl,hentries,hA,hB⟩ :=
    h.find buffer
  · rw [Request.spec_insert_found newNode hl]
    exact ⟨g,t,by simp [Request.run,h.insert_found hl],h⟩
  · rw [Request.spec_insert_new newNode hl]
    by_cases hn0 : newNode=0
    · rw [if_pos hn0]
      refine ⟨g,_,?_,h⟩
      simp [Request.run,rtlInsertElementGenericTableAvl,hf,rtlInsertElementGenericTableFullAvl,
        placeResult_ne_foundNode,hn0]
    · rw [if_neg hn0]
      obtain ⟨hnr,hna⟩ := hn.resolve_left hn0
      obtain ⟨g',t',hrun,h',hlist,hdata⟩ := h.holds.insertNew hs hnode hn0 hnr hna
      refine ⟨g',t',?_,h',?_⟩
      · simp [Request.run,rtlInsertElementGenericTableAvl,hf,hrun]
      · -- the user data of the other nodes is as before
        have hold : ∀ b∈(plug .nil q).toList, g'.userData b=g.userData b := by
          intro b hb
          rw [hdata,Function.update_of_ne]
          rintro rfl
          exact hna (h.holds.allocated.mem_iff.mpr hb)
        have hlist₀ : (plug .nil q).toList=Path.before q++Path.after q := by
          simp [toList_plug,BTree.toList]
        have hmap : ∀ l : List Addr, (∀ b∈l, b∈(plug .nil q).toList) →
            l.map (fun b => (b, g'.userData b))=l.map fun b => (b, g.userData b) :=
          fun l hl => map_congr_left fun b hb => by rw [hold b (hl b hb)]
        have hnew : g'.userData newNode=buffer := by rw [hdata,Function.update_self]
        rw [OrdMap.entries_insert newNode hentries hA hB,hlist,map_append,map_cons,
          hnew,hmap _ fun b hb => hlist₀ ▸ mem_append_left _ hb,
          hmap _ fun b hb => hlist₀ ▸ mem_append_right _ hb]

theorem Refines.delete (buffer : α) :
    ∃ g' t', Request.run compareRoutine g (.delete buffer) =
        some (g', (Request.spec m (.delete buffer)).2) ∧
      Refines g' (Request.spec m (.delete buffer)).1 t' := by
  obtain ⟨a,A,B,hAB,hf,hc,hl⟩ | ⟨q,node,hf,rfl,-,-,hl,-,-,-⟩ := h.find buffer
  · have ha : a∈t.toList := by simp [hAB]
    obtain ⟨g',t',hrun,h',hlist,hdata,-⟩ := h.holds.deleteNode ha hf
    refine ⟨g',t',by simp [Request.run,hrun,Request.spec,hl],h',?_⟩
    have hnd : t.toList.Nodup := by
      simpa [Path.labels] using (nodup_cons.mp h.holds.zip.nodup).2
    have herase : t.toList.erase a=A++B := by
      rw [hAB] at hnd ⊢
      have haA : a∉A := fun hm => by
        have := (nodup_append.mp hnd).2.2 a hm a (by simp)
        exact this rfl
      rw [erase_append_right _ haA,erase_cons_head]
    simp only [Request.spec]
    rw [OrdMap.entries_erase (h.entries_split hAB) hc,hlist,herase,hdata,map_append]
  · refine ⟨g,_,?_,h.holds,?_⟩
    · simp [Request.run,rtlDeleteElementGenericTableAvl,hf,placeResult_ne_foundNode,Request.spec,hl]
    · have hnone : ∀ e∈m.entries, ¬(decide (compareRoutine buffer e.2 = .eq))=true := by
        simpa [OrdMap.lookup] using hl
      simp only [Request.spec,OrdMap.erase]
      rw [eraseP_of_forall_not hnone,h.entries]

theorem Refines.lookup (buffer : α) :
    Request.run compareRoutine g (.lookup buffer) =
      some (g, (Request.spec m (.lookup buffer)).2) := by
  obtain ⟨a,A,B,-,hf,-,hl⟩ | ⟨q,node,hf,rfl,-,-,hl,-,-,-⟩ := h.find buffer
  · simp [Request.run,rtlLookupElementGenericTableAvl,rtlLookupElementGenericTableFullAvl,hf,
      Request.spec,hl]
  · simp [Request.run,rtlLookupElementGenericTableAvl,rtlLookupElementGenericTableFullAvl,hf,
      Request.spec,hl,placeResult_ne_foundNode]

theorem Refines.run {r : Request α} (hr : r.allocates g) :
    ∃ g' t', r.run compareRoutine g=some (g', (r.spec m).2) ∧ Refines g' (r.spec m).1 t' := by
  cases r with
  | insert buffer newNode => exact h.insert buffer (of_decide_eq_true hr)
  | delete buffer => exact h.delete buffer
  | lookup buffer => exact ⟨g,t,h.lookup buffer,h⟩

theorem Refines.runRequests {requests : List (Request α)}
    (hr : requestsSound compareRoutine g requests) :
    ∃ g' t', Odyssey.Avl.runRequests compareRoutine g requests =
        some (g', (specRequests m requests).2) ∧ Refines g' (specRequests m requests).1 t' := by
  induction requests generalizing g m t with
  | nil => exact ⟨g,t,rfl,h⟩
  | cons r requests ih =>
    obtain ⟨hr1,hr2⟩ := Bool.and_eq_true_iff.mp hr
    obtain ⟨g₁,t₁,hrun,h₁⟩ := h.run hr1
    rw [hrun] at hr2
    obtain ⟨g',t',hruns,h'⟩ := ih h₁ (by simpa using hr2)
    refine ⟨g',t',?_,h'⟩
    simp [Odyssey.Avl.runRequests,hrun,hruns,specRequests]

end

end Steps

omit [Std.TransCmp compareRoutine] in
theorem refines_initialized (mem : RtlMem) (userData : Addr → α) {root : Addr} (hr : root≠0) :
    Refines (rtlInitializeGenericTableAvl mem userData root)
      (OrdMap.empty : OrdMap Addr compareRoutine) .nil :=
  ⟨holds_of_empty mem userData hr,rfl⟩

section Fresh
variable (mem : RtlMem) (userData : Addr → α) {root : Addr} (hr : root≠0)
  {requests : List (Request α)}
  (hc : requestsSound compareRoutine (rtlInitializeGenericTableAvl mem userData root) requests)
include hr hc

/-- Every run returns, and leaves a table that holds a balanced search tree. -/
theorem genericTableAvl_holds : ∃ g t replies,
    runRequests compareRoutine (rtlInitializeGenericTableAvl mem userData root) requests =
      some (g, replies) ∧ Holds compareRoutine g t := by
  obtain ⟨g,t,hrun,h⟩ := (refines_initialized mem userData hr).runRequests hc
  exact ⟨g,t,_,hrun,h.holds⟩

/-- Every run of insertions, deletions and lookups on a fresh table returns what the same run
returns on the empty ordered map, and leaves the elements of that map in the table. There an
insertion of an equal element changes nothing at all. -/
theorem genericTableAvl_refines :
    ∃ g t, runRequests compareRoutine (rtlInitializeGenericTableAvl mem userData root) requests =
        some (g, (specRequests (OrdMap.empty : OrdMap Addr compareRoutine) requests).2) ∧
      Refines g (specRequests (OrdMap.empty : OrdMap Addr compareRoutine) requests).1 t ∧
      ∀ buffer e newNode,
        (specRequests (OrdMap.empty : OrdMap Addr compareRoutine) requests).1.lookup buffer=some e →
        rtlInsertElementGenericTableAvl compareRoutine g buffer newNode =
          some (g, userDataAddress e.1, false) := by
  obtain ⟨g,t,hrun,h⟩ := (refines_initialized mem userData hr).runRequests hc
  exact ⟨g,t,hrun,h,fun buffer e newNode hl => h.insert_found hl newNode⟩

end Fresh

/-- Four nodes come in ascending order, which rotates; then an inner node goes. -/
theorem genericTableAvl_holds_ascending :
    let requests : List (Request Nat) := [.insert 1 100,.insert 2 200,.insert 3 300,.insert 4 400,
      .delete 2,.lookup 3,.insert 5 200]
    let g := rtlInitializeGenericTableAvl (fun _ => ⟨0,0,0,0⟩) (fun _ => 0) 16
    requestsSound compare g requests ∧
      ∃ g' t replies, runRequests compare g requests=some (g', replies) ∧ Holds compare g' t := by
  refine ⟨by decide +kernel,?_⟩
  exact genericTableAvl_holds _ _ (by decide) (by decide +kernel)

end Map

def someRequests : List (Request Nat) :=
  [.insert 1 100,.insert 2 200,.insert 1 300,.delete 1,.lookup 2,.lookup 1]

/-- An equal element is not inserted again, and a deletion leaves the other elements. -/
theorem genericTableAvl_refines_replies :
    let g := rtlInitializeGenericTableAvl (fun _ => ⟨0,0,0,0⟩) (fun _ => 0) 16
    requestsSound compare g someRequests ∧
      ∃ g' t, runRequests compare g someRequests=some (g', [.insert 116 true,.insert 216 true,
          .insert 116 false,.delete true,.lookup 216,.lookup 0]) ∧
        Refines g' (specRequests (OrdMap.empty : OrdMap Addr (compare : Nat → Nat → Ordering))
          someRequests).1 t := by
  have hsound : requestsSound compare (rtlInitializeGenericTableAvl (fun _ => ⟨0,0,0,0⟩)
      (fun _ => 0) 16) someRequests := by decide +kernel
  obtain ⟨g,t,hrun,h,-⟩ := genericTableAvl_refines _ _ (by decide) hsound
  exact ⟨hsound,g,t,hrun,h⟩

end Odyssey.Avl
