import Odyssey.Mm.MiAvl
import Odyssey.Rtl.AvlTable

/-! The tree of virtual address descriptors of a process (`ntoskrnl/mm/ARM3/vadnode.c`). The
memory areas that `MiInsertNode` and `MiRemoveNode` keep beside the tree are not part of it. -/
namespace Odyssey.Mm
open Odyssey.Avl AvlTree Function List Path

variable {p : Addr}

/-- The `MM_AVL_TABLE` of a process with the page ranges of its nodes. -/
structure VadTable extends Table MiMem 5 24 where
  startingVpn : Addr → Nat
  endingVpn : Addr → Nat
  nodeHint : Addr

def roundUp (a b : Nat) : Nat := (a+b-1)%2^32/b*b

/-- `MM_LOWEST_USER_ADDRESS` and `MM_HIGHEST_VAD_ADDRESS`, 16 pages below the highest user
address. -/
def mmLowestUserAddress : Nat := 0x10000

def mmHighestVadAddress : Nat := 0x7FFDFFFF

namespace VadTable

def fuel (v : VadTable) : Nat := v.numberGenericTableElements.toNat+1

def compareVpn (v : VadTable) (vpn : Nat) (node : Addr) : Ordering :=
  if vpn<v.startingVpn node then .lt
  else if vpn≤v.endingVpn node then .eq
  else .gt

def find (v : VadTable) (vpn : Nat) : Option (TableSearchResult × Addr) :=
  rtlpFindAvlTableNodeOrParent miOps (v.compareVpn vpn) v.fuel v.toTable

def rootNode (v : VadTable) : Addr := miOps.child v.mem .right v.balancedRoot

end VadTable

/-- The results are the table, whose hint may have changed, and the VAD (NULL is 0). -/
def miLocateAddress (v : VadTable) (virtualAddress : BitVec 32) : Option (VadTable × Addr) :=
  if v.nodeHint=0 then some (v, 0)
  else
    let vpn := virtualAddress.toNat/4096
    if v.startingVpn v.nodeHint≤vpn ∧ vpn≤v.endingVpn v.nodeHint then some (v, v.nodeHint)
    else do
      let (searchResult, foundVad) ← v.find vpn
      if searchResult ≠ .foundNode then some (v, 0)
      else some ({ v with nodeHint := foundVad }, foundVad)

def conflictLoop (v : VadTable) (startVpn endVpn : Nat) : Nat → Addr → Option Addr
  | 0, _ => none
  | fuel+1, currentNode =>
    if currentNode=0 then some 0
    else if startVpn > v.endingVpn currentNode then
      conflictLoop v startVpn endVpn fuel (miOps.child v.mem .right currentNode)
    else if endVpn<v.startingVpn currentNode then
      conflictLoop v startVpn endVpn fuel (miOps.child v.mem .left currentNode)
    else some currentNode

def miCheckForConflictingNode (v : VadTable) (startVpn endVpn : Nat) : Option Addr :=
  if v.numberGenericTableElements=0 then some 0
  else conflictLoop v startVpn endVpn (v.fuel+1) v.rootNode

def miInsertNode (v : VadTable) (newNode parent : Addr) (result : TableSearchResult) :
    Option VadTable := do
  let t ← rtlpInsertAvlTreeNode miOps v.fuel v.toTable newNode parent result
  some { v with toTable := t }

def miInsertVad (v : VadTable) (vad : Addr) : Option VadTable := do
  let v := { v with nodeHint := vad }
  let (result, parent) ← v.find (v.startingVpn vad)
  miInsertNode v vad parent result

def miRemoveNode (v : VadTable) (node : Addr) : Option VadTable := do
  let t ← rtlpDeleteAvlTreeNode miOps v.fuel v.toTable node
  let v := { v with toTable :=
    { t with numberGenericTableElements := t.numberGenericTableElements-1 } }
  if v.nodeHint=node then
    some { v with nodeHint := if v.numberGenericTableElements=0 then 0 else v.rootNode }
  else some v

def nextLoop (m : MiMem) : Nat → Addr → Option Addr
  | 0, _ => none
  | fuel+1, node =>
    if miOps.parent m node=node then some 0
    else if miOps.isLeftChild m node then some (miOps.parent m node)
    else nextLoop m fuel (miOps.parent m node)

def miGetNextNode (m : MiMem) (fuel : Nat) (node : Addr) : Option Addr :=
  if miOps.child m .right node≠0 then lastNode miOps m .left fuel (miOps.child m .right node)
  else nextLoop m (fuel+1) node

def baseBehind (v : VadTable) (alignment : Nat) (node : Addr) : Nat :=
  roundUp ((v.endingVpn node*4096%2^32) ||| 4095) alignment

/-- The search for a gap behind a node. `none` inside is `STATUS_NO_MEMORY`; otherwise the
results are `PreviousVad` and `Base`. -/
def gapLoop (v : VadTable) (lengthVpn alignment : Nat) : Nat → Addr → Option (Option (Addr × Nat))
  | 0, _ => none
  | fuel+1, node => do
    let lowVpn := roundUp ((v.endingVpn node+1)%2^32) (alignment/4096)
    let nextNode ← miGetNextNode v.mem v.fuel node
    if nextNode=0 then
      let highestVpn := (mmHighestVadAddress+1)/4096
      if highestVpn > lowVpn ∧ lengthVpn≤highestVpn-lowVpn then
        some (some (node, baseBehind v alignment node))
      else some none
    else if lengthVpn≤(v.startingVpn nextNode+2^32-lowVpn)%2^32 ∧
        v.startingVpn nextNode > lowVpn then some (some (node, baseBehind v alignment node))
    else gapLoop v lengthVpn alignment fuel nextNode

def miFindEmptyAddressRangeInTree (v : VadTable) (length alignment : Nat) :
    Option (Option (Addr × Nat)) :=
  let lengthVpn := (length+4095)%2^32/4096
  let startingVpn := roundUp (mmLowestUserAddress/4096) (alignment/4096)
  let atBottom := (0, startingVpn*4096%2^32)
  if v.numberGenericTableElements=0 then some (some atBottom)
  else do
    let node ← lastNode miOps v.mem .left v.fuel v.rootNode
    if v.startingVpn node > startingVpn ∧ lengthVpn<v.startingVpn node-startingVpn then
      some (some atBottom)
    else gapLoop v lengthVpn alignment v.fuel node

def VadTable.newVad (v : VadTable) (vad : Addr) (startingVpn endingVpn : Nat) : VadTable :=
  { v with
    mem := update v.mem vad ⟨0,0,0⟩
    startingVpn := update v.startingVpn vad startingVpn
    endingVpn := update v.endingVpn vad endingVpn }

section Counts
variable {M : Type} {ops : NodeOps M} {dw cw : Nat} {t t' : Table M dw cw} {fuel : Nat} {n : Addr}

theorem insertLoop_count (h : insertLoop ops fuel t n p=some t') :
    t'.numberGenericTableElements=t.numberGenericTableElements ∧
      t'.balancedRoot=t.balancedRoot := by
  induction fuel generalizing t n p with
  | zero => cases h
  | succ fuel ih =>
    rw [insertLoop] at h
    by_cases h0 : ops.balance t.mem p=0
    · rw [if_pos h0] at h
      have hrest := ih h
      exact hrest
    · rw [if_neg h0] at h
      split_ifs at h
      all_goals
        obtain rfl := Option.some.inj h
        exact ⟨rfl,rfl⟩

theorem rtlpInsertAvlTreeNode_count
    {result : TableSearchResult} (h : rtlpInsertAvlTreeNode ops fuel t n p result=some t') :
    t'.numberGenericTableElements=t.numberGenericTableElements+1 ∧
      t'.balancedRoot=t.balancedRoot := by
  cases result with
  | emptyTree =>
    obtain rfl := Option.some.inj h
    exact ⟨rfl,rfl⟩
  | foundNode | insertAsLeft | insertAsRight =>
    have hloop := insertLoop_count h
    exact hloop

theorem deleteTurn_count {b : Int} (h : deleteTurn ops t p b = .done t') :
    t'.numberGenericTableElements=t.numberGenericTableElements ∧
      t'.balancedRoot=t.balancedRoot := by
  simp only [deleteTurn] at h
  split_ifs at h
  all_goals
    obtain rfl := DeleteTurn.done.inj h
    exact ⟨rfl,rfl⟩

theorem deleteLoop_count {b : Int} (h : deleteLoop ops fuel t p b=some t') :
    t'.numberGenericTableElements=t.numberGenericTableElements ∧
      t'.balancedRoot=t.balancedRoot := by
  induction fuel generalizing t p b with
  | zero => cases h
  | succ fuel ih =>
    rw [deleteLoop] at h
    cases hturn : deleteTurn ops t p b with
    | done t₁ =>
      rw [hturn] at h
      obtain rfl := Option.some.inj h
      exact deleteTurn_count hturn
    | climb m node =>
      rw [hturn] at h
      have hrest := ih h
      exact hrest

theorem rtlpDeleteAvlTreeNode_count {n : Addr} (h : rtlpDeleteAvlTreeNode ops fuel t n=some t') :
    t'.numberGenericTableElements=t.numberGenericTableElements ∧
      t'.balancedRoot=t.balancedRoot := by
  obtain ⟨d,-,h⟩ := Option.bind_eq_some_iff.mp h
  obtain ⟨t₁,hloop,h⟩ := Option.bind_eq_some_iff.mp h
  have hcount := deleteLoop_count hloop
  split_ifs at h
  all_goals
    obtain rfl := Option.some.inj h
    exact hcount

end Counts

section Package
variable {dw cw : Nat} {T : Table MiMem dw cw} {n : Addr}

/-- The packed variant of the insertion, from the simulation. -/
theorem miInsert_spec {p : Path Addr} (hz : Zip (unpack T.mem) T.balancedRoot .nil p)
    (hbal : (plug .nil p).Balanced) (hn0 : n≠0) (hnr : n≠T.balancedRoot)
    (hnp : n∉labels p) (hb : rtlOps.balance (unpack T.mem) n=0) (hna : Aligned n)
    (hra : Aligned T.balancedRoot) (hal : AlignedTree (plug .nil p)) (hf : p.length<fuel) :
    ∃ T', rtlpInsertAvlTreeNode miOps fuel T n (top T.balancedRoot p) (placeResult p)=some T' ∧
      T'.balancedRoot=T.balancedRoot ∧
      T'.numberGenericTableElements=T.numberGenericTableElements+1 ∧
      Zip (unpack T'.mem) T.balancedRoot (growFix (.node .nil n 0 .nil) p).1 [] := by
  let R : Table RtlMem dw cw :=
    ⟨T.balancedRoot,unpack T.mem,T.depthOfTree,T.numberGenericTableElements⟩
  obtain ⟨m,hm,hzm⟩ := rtlpInsertAvlTreeNode_spec (T := R) hz hbal hn0 hnr hnp hb hf
  have hs : Sim T R := ⟨rfl,rfl⟩
  have hsim := rtlpInsertAvlTreeNode_sim hs hz hbal hn0 hnr hnp hb hna hra hal fuel
  rw [hm] at hsim
  cases hmi : rtlpInsertAvlTreeNode miOps fuel T n (top T.balancedRoot p) (placeResult p) with
  | none =>
    rw [hmi] at hsim
    cases hsim
  | some T' =>
    rw [hmi] at hsim
    obtain ⟨hcount,hroot⟩ := rtlpInsertAvlTreeNode_count hmi
    cases hsim with
    | some hsim =>
      refine ⟨T',rfl,hroot,hcount,?_⟩
      rw [hsim.mem]
      exact hzm

theorem miDelete_spec {t : BTree Addr} (hz : Zip (unpack T.mem) T.balancedRoot t [])
    (hbal : t.Balanced) (hn : n∈t.toList) (hal : AlignedTree t) (hf : t.toList.length<fuel) :
    ∃ T' t', rtlpDeleteAvlTreeNode miOps fuel T n=some T' ∧
      T'.balancedRoot=T.balancedRoot ∧
      T'.numberGenericTableElements=T.numberGenericTableElements ∧
      Zip (unpack T'.mem) T.balancedRoot t' [] ∧ t'.Balanced ∧ t'.toList=t.toList.erase n := by
  let R : Table RtlMem dw cw :=
    ⟨T.balancedRoot,unpack T.mem,T.depthOfTree,T.numberGenericTableElements⟩
  obtain ⟨m,t',shorter,hm,hzm,hbal',hlist,-⟩ := rtlpDeleteAvlTreeNode_spec (T := R) hz hbal hn hf
  have hs : Sim T R := ⟨rfl,rfl⟩
  obtain ⟨hsim,-⟩ := rtlpDeleteAvlTreeNode_sim hs hz hbal hn hal hf
  rw [hm] at hsim
  cases hmi : rtlpDeleteAvlTreeNode miOps fuel T n with
  | none =>
    rw [hmi] at hsim
    cases hsim
  | some T' =>
    rw [hmi] at hsim
    obtain ⟨hcount,hroot⟩ := rtlpDeleteAvlTreeNode_count hmi
    cases hsim with
    | some hsim =>
      refine ⟨T',t',rfl,hroot,hcount,?_,hbal',hlist⟩
      rw [hsim.mem]
      exact hzm

theorem findLoop_unpack (cut : Addr → Ordering) (m : MiMem) (fuel : Nat) (a : Addr) :
    findLoop miOps cut m fuel a=findLoop rtlOps cut (unpack m) fuel a := by
  induction fuel generalizing a with
  | zero => rfl
  | succ fuel ih =>
    rw [findLoop,findLoop]
    cases cut a with
    | lt => simp only [miOps_child,ih]
    | eq => rfl
    | gt => simp only [miOps_child,ih]

end Package

/-- The table holds the tree `t`: disjoint page ranges in order, and a hint that is a node of
the tree, or NULL when there is none. -/
structure VadTree (v : VadTable) (t : BTree Addr) : Prop where
  zip : Zip (unpack v.mem) v.balancedRoot t []
  balanced : t.Balanced
  aligned : AlignedTree t
  alignedRoot : Aligned v.balancedRoot
  ordered : t.toList.Pairwise fun a b => v.endingVpn a<v.startingVpn b
  range : ∀ a∈t.toList, v.startingVpn a≤v.endingVpn a ∧ v.endingVpn a<2^20
  count : v.numberGenericTableElements.toNat=t.toList.length
  hint : if t = .nil then v.nodeHint=0 else v.nodeHint∈t.toList

/-- Disjoint ranges of pages in order take at least one page each. -/
theorem length_le_of_ordered {f g : Addr → Nat} {l : List Addr} {lo hi : Nat}
    (ho : l.Pairwise fun a b => g a<f b)
    (hr : ∀ a∈l, f a≤g a ∧ g a<hi) (hlo : ∀ a∈l, lo≤f a) (hle : lo≤hi) :
    lo+l.length≤hi := by
  induction l generalizing lo with
  | nil => simpa using hle
  | cons a l ih =>
    obtain ⟨h1,h2⟩ := pairwise_cons.mp ho
    have ha := hr a (by simp)
    have hl := hlo a (by simp)
    have hnext : g a+1≤hi := ha.2
    have := ih h2 (fun b hb => hr b (by simp [hb])) (h1) hnext
    simp only [length_cons]
    omega

section Search
variable {v : VadTable} {t : BTree Addr}

theorem VadTree.count_eq_zero (h : VadTree v t) : v.numberGenericTableElements=0 ↔ t = .nil := by
  constructor
  · intro h0
    have hlen : t.toList.length=0 := by
      rw [← h.count,h0]
      rfl
    cases t with
    | nil => rfl
    | node l a b u => simp [BTree.toList] at hlen
  · rintro rfl
    exact BitVec.eq_of_toNat_eq h.count

theorem VadTree.rootNode (h : VadTree v t) : v.rootNode=root t := h.zip.path.2.2

/-- Two nodes are the same or their ranges are apart. -/
theorem VadTree.apart (h : VadTree v t) {a b : Addr} (ha : a∈t.toList) (hb : b∈t.toList)
    (hne : a≠b) : v.endingVpn a<v.startingVpn b ∨ v.endingVpn b<v.startingVpn a := by
  have hsymm : Std.Symm fun a b =>
      v.endingVpn a<v.startingVpn b ∨ v.endingVpn b<v.startingVpn a := ⟨fun a b => Or.symm⟩
  have hor : t.toList.Pairwise fun a b =>
      v.endingVpn a<v.startingVpn b ∨ v.endingVpn b<v.startingVpn a :=
    h.ordered.imp Or.inl
  exact hor.forall ha hb hne

def Meets (v : VadTable) (startVpn endVpn : Nat) (a : Addr) : Prop :=
  startVpn≤v.endingVpn a ∧ v.startingVpn a≤endVpn

/-- A subtree that is passed by does not meet the range. -/
theorem conflictLoop_spec {u : BTree Addr} {startVpn endVpn fuel : Nat}
    (hrep : Rep (unpack v.mem) p u)
    (ho : u.toList.Pairwise fun a b => v.endingVpn a<v.startingVpn b)
    (hr : ∀ a∈u.toList, v.startingVpn a≤v.endingVpn a) (hf : u.toList.length<fuel) :
    ∃ a, conflictLoop v startVpn endVpn fuel (root u)=some a ∧
      (a≠0 → a∈u.toList ∧ Meets v startVpn endVpn a) ∧
      (a=0 → ∀ b∈u.toList, ¬Meets v startVpn endVpn b) := by
  induction u generalizing p fuel with
  | nil =>
    obtain ⟨n,rfl⟩ := Nat.exists_eq_succ_of_ne_zero (by omega : fuel≠0)
    refine ⟨0,?_,by simp,by simp [BTree.toList]⟩
    rw [root,conflictLoop,if_pos rfl]
  | node l x b r ihl ihr =>
    obtain ⟨n,rfl⟩ := Nat.exists_eq_succ_of_ne_zero (by omega : fuel≠0)
    obtain ⟨hx,hl,hrr⟩ := hrep
    simp only [BTree.toList,length_append,length_cons] at hf
    rw [BTree.toList] at ho hr ⊢
    obtain ⟨hol,hor,hlr⟩ := pairwise_append.mp ho
    obtain ⟨hxr,hor⟩ := pairwise_cons.mp hor
    have hxx := hr x (by simp)
    rw [root,conflictLoop,if_neg hx.ne]
    by_cases h1 : startVpn > v.endingVpn x
    · rw [if_pos h1,miOps_child,show rtlOps.child (unpack v.mem) .right x=root r from hx.far]
      obtain ⟨a,hrun,hfound,hnone⟩ := ihr hrr hor (fun c hc => hr c (by simp [hc]))
        (show _<n by omega)
      refine ⟨a,hrun,fun ha => ⟨by simp [(hfound ha).1],(hfound ha).2⟩,fun ha c hc => ?_⟩
      obtain hc | hc := mem_append.mp hc
      · have := hlr c hc x (by simp)
        exact fun hm => absurd hm.1 (by omega)
      · obtain rfl | hc := mem_cons.mp hc
        · exact fun hm => absurd hm.1 (by omega)
        · exact hnone ha c hc
    · rw [if_neg h1]
      by_cases h2 : endVpn<v.startingVpn x
      · rw [if_pos h2,miOps_child,show rtlOps.child (unpack v.mem) .left x=root l from hx.near]
        obtain ⟨a,hrun,hfound,hnone⟩ := ihl hl hol (fun c hc => hr c (by simp [hc]))
          (show _<n by omega)
        refine ⟨a,hrun,fun ha => ⟨by simp [(hfound ha).1],(hfound ha).2⟩,fun ha c hc => ?_⟩
        obtain hc | hc := mem_append.mp hc
        · exact hnone ha c hc
        · obtain rfl | hc := mem_cons.mp hc
          · exact fun hm => absurd hm.2 (by omega)
          · have := hxr c hc
            exact fun hm => absurd hm.2 (by omega)
      · rw [if_neg h2]
        exact ⟨x,rfl,fun _ => ⟨by simp,by omega,by omega⟩,fun h0 => absurd h0 hx.ne⟩

/-- `MiCheckForConflictingNode` finds a node that meets the range if there is one. -/
theorem VadTree.miCheckForConflictingNode (h : VadTree v t) (startVpn endVpn : Nat) :
    ∃ a, miCheckForConflictingNode v startVpn endVpn=some a ∧
      (a≠0 → a∈t.toList ∧ Meets v startVpn endVpn a) ∧
      (a=0 → ∀ b∈t.toList, ¬Meets v startVpn endVpn b) := by
  unfold Odyssey.Mm.miCheckForConflictingNode
  by_cases h0 : v.numberGenericTableElements=0
  · obtain rfl := h.count_eq_zero.mp h0
    exact ⟨0,by rw [if_pos h0],by simp,by simp [BTree.toList]⟩
  · rw [if_neg h0,h.rootNode]
    exact conflictLoop_spec h.zip.focus h.ordered (fun a ha => (h.range a ha).1)
      (by rw [VadTable.fuel,h.count]; omega)

/-- The search by page number: the node with that page, or the place for a new one. -/
theorem VadTree.find (h : VadTree v t) (vpn : Nat) :
    (∃ a∈t.toList, v.find vpn=some (.foundNode, a) ∧ v.startingVpn a≤vpn ∧
      vpn≤v.endingVpn a) ∨
    ∃ q node, v.find vpn=some (placeResult q, node) ∧ t=plug .nil q ∧
      (q≠[] → node=top v.balancedRoot q) ∧ (∀ a∈before q, v.endingVpn a<vpn) ∧
      ∀ a∈after q, vpn<v.startingVpn a := by
  unfold VadTable.find rtlpFindAvlTableNodeOrParent
  by_cases h0 : v.numberGenericTableElements=0
  · obtain rfl := h.count_eq_zero.mp h0
    exact .inr ⟨[],0,by rw [if_pos h0]; rfl,rfl,by simp,by simp [Path.before],
      by simp [Path.after]⟩
  have hroot : root t≠0 := fun hr =>
    h0 (h.count_eq_zero.mpr (h.zip.focus.root_eq_zero.mp hr))
  have hchild : miOps.child v.mem .right v.balancedRoot=root t := h.zip.path.2.2
  rw [if_neg h0,hchild,findLoop_unpack]
  have hcut : ∀ a, (v.compareVpn vpn a = .lt ↔ vpn<v.startingVpn a) ∧
      (v.compareVpn vpn a = .gt ↔ ¬vpn<v.startingVpn a ∧ v.endingVpn a<vpn) ∧
      (v.compareVpn vpn a = .eq ↔ v.startingVpn a≤vpn ∧ vpn≤v.endingVpn a) := by
    intro a
    simp only [VadTable.compareVpn]
    split_ifs <;> simp <;> omega
  obtain ⟨a,hrun,hc,hm⟩ | ⟨q,hrun,-,hp,hs⟩ := findLoop_spec h.zip hroot
    (show SearchPath (v.compareVpn vpn) [] by simp [SearchPath])
    (show _<v.fuel by simp [VadTable.fuel,h.count])
  · exact .inl ⟨a,hm,hrun,(hcut a).2.2.mp hc⟩
  · have ht : t=plug .nil q := hp
    have hlist : t.toList=before q++after q := by
      rw [ht]
      simp [toList_plug,BTree.toList]
    have ho : (before q++after q).Pairwise fun a b =>
        v.endingVpn a<v.startingVpn b ∧ v.startingVpn a≤v.endingVpn a ∧
          v.startingVpn b≤v.endingVpn b := by
      rw [← hlist]
      exact h.ordered.imp_of_mem fun ha hb hab => ⟨hab,(h.range _ ha).1,(h.range _ hb).1⟩
    obtain ⟨hbefore,hafter⟩ := hs.split_of_mono
      (fun a b hab ha => (hcut b).1.mpr (by have := (hcut a).1.mp ha; omega))
      (fun a b hab hb => (hcut a).2.1.mpr (by have := (hcut b).2.1.mp hb; omega)) ho
    exact .inr ⟨q,_,hrun,ht,fun _ => rfl,fun a ha => ((hcut a).2.1.mp (hbefore a ha)).2,
      fun a ha => (hcut a).1.mp (hafter a ha)⟩

/-- `MiLocateAddress` returns the node whose range has the page of the address, or NULL if
there is none, and leaves the tree with a hint in it. -/
theorem VadTree.miLocateAddress (h : VadTree v t) (address : BitVec 32) :
    ∃ v' a, miLocateAddress v address=some (v', a) ∧ VadTree v' t ∧
      v'.startingVpn=v.startingVpn ∧ v'.endingVpn=v.endingVpn ∧
      (a≠0 → a∈t.toList ∧ v.startingVpn a≤address.toNat/4096 ∧
        address.toNat/4096≤v.endingVpn a) ∧
      (a=0 → ∀ b∈t.toList, ¬(v.startingVpn b≤address.toNat/4096 ∧
        address.toNat/4096≤v.endingVpn b)) := by
  unfold Odyssey.Mm.miLocateAddress
  have hne : ∀ a∈t.toList, a≠0 := rep_ne_zero h.zip.focus
  have hhint := h.hint
  by_cases hnil : t = .nil
  · subst hnil
    rw [if_pos rfl] at hhint
    rw [if_pos hhint]
    exact ⟨v,0,rfl,h,rfl,rfl,by simp,by simp [BTree.toList]⟩
  rw [if_neg hnil] at hhint
  rw [if_neg (hne _ hhint)]
  by_cases hin : v.startingVpn v.nodeHint≤address.toNat/4096 ∧
      address.toNat/4096≤v.endingVpn v.nodeHint
  · rw [if_pos hin]
    exact ⟨v,v.nodeHint,rfl,h,rfl,rfl,fun _ => ⟨hhint,hin⟩,
      fun h0 => absurd h0 (hne _ hhint)⟩
  rw [if_neg hin]
  obtain ⟨a,ha,hf,hpage⟩ | ⟨q,node,hf,rfl,-,hbefore,hafter⟩ := h.find (address.toNat/4096)
  · rw [hf]
    refine ⟨{ v with nodeHint := a },a,by simp,?_,rfl,rfl,fun _ => ⟨ha,hpage⟩,
      fun h0 => absurd h0 (hne a ha)⟩
    exact ⟨h.zip,h.balanced,h.aligned,h.alignedRoot,h.ordered,h.range,h.count,
      by rw [if_neg hnil]; exact ha⟩
  · rw [hf]
    refine ⟨v,0,by simp [placeResult_ne_foundNode],h,rfl,rfl,by simp,fun _ b hb hpage => ?_⟩
    have hlist : (plug .nil q).toList=before q++after q := by
      simp [toList_plug,BTree.toList]
    rw [hlist] at hb
    obtain hb | hb := mem_append.mp hb
    · have := hbefore b hb
      omega
    · have := hafter b hb
      omega

end Search

section Change
variable {v : VadTable} {t : BTree Addr} {vad : Addr} {startVpn endVpn : Nat}

structure Fresh (v : VadTable) (t : BTree Addr) (vad : Addr) : Prop where
  ne_zero : vad≠0
  aligned : Aligned vad
  ne_root : vad≠v.balancedRoot
  not_mem : vad∉t.toList

theorem Fresh.update_eq (hf : Fresh v t vad) (f : Addr → Nat) (x : Nat) {a : Addr}
    (ha : a∈t.toList) : update f vad x a=f a := by
  rw [update_of_ne]
  rintro rfl
  exact hf.not_mem ha

/-- Setting up a VAD does not touch the tree. -/
theorem VadTree.newVad (h : VadTree v t) (hf : Fresh v t vad) :
    VadTree (v.newVad vad startVpn endVpn) t where
  zip := by
    refine h.zip.congr fun a ha => ?_
    have hne : a≠vad := by
      rintro rfl
      obtain ha | ha := mem_cons.mp ha
      · exact hf.ne_root ha
      · exact hf.not_mem (by simpa [labels] using ha)
    exact ⟨by simp [VadTable.newVad,unpack_update,rtlOps,hne],
      fun s => by simp [VadTable.newVad,unpack_update,rtlOps,hne],
      by simp [VadTable.newVad,unpack_update,rtlOps,hne]⟩
  balanced := h.balanced
  aligned := h.aligned
  alignedRoot := h.alignedRoot
  ordered := h.ordered.imp_of_mem fun ha hb hab => by
    simp only [VadTable.newVad,hf.update_eq _ _ ha,hf.update_eq _ _ hb]
    exact hab
  range a ha := by
    simp only [VadTable.newVad,hf.update_eq _ _ ha]
    exact h.range a ha
  count := h.count
  hint := h.hint

/-- A VAD whose range meets no other one is inserted at its place in the order. -/
theorem VadTree.insert (h : VadTree v t) (hf : Fresh v t vad) (hse : startVpn≤endVpn)
    (hend : endVpn<2^20) (hfree : ∀ b∈t.toList, ¬Meets v startVpn endVpn b) :
    ∃ v' t', miInsertVad (v.newVad vad startVpn endVpn) vad=some v' ∧ VadTree v' t' ∧
      t'.toList.Perm (vad::t.toList) ∧ v'.balancedRoot=v.balancedRoot ∧
      v'.startingVpn=update v.startingVpn vad startVpn ∧
      v'.endingVpn=update v.endingVpn vad endVpn := by
  have h' : VadTree (v.newVad vad startVpn endVpn) t := h.newVad hf
  generalize hw : v.newVad vad startVpn endVpn=w at h'
  have hstart : w.startingVpn=update v.startingVpn vad startVpn := hw ▸ rfl
  have hending : w.endingVpn=update v.endingVpn vad endVpn := hw ▸ rfl
  have hroot : w.balancedRoot=v.balancedRoot := hw ▸ rfl
  have hbal0 : rtlOps.balance (unpack w.mem) vad=0 := by
    rw [← hw]
    simp only [VadTable.newVad,unpack_update,rtlOps,update_self]
    rfl
  have hs : w.startingVpn vad=startVpn := by rw [hstart,update_self]
  have he : w.endingVpn vad=endVpn := by rw [hending,update_self]
  have hmeet : ∀ b∈t.toList, ¬(startVpn≤w.endingVpn b ∧ w.startingVpn b≤endVpn) := by
    intro b hb
    rw [hstart,hending,hf.update_eq _ _ hb,hf.update_eq _ _ hb]
    exact hfree b hb
  have hhint : ({ w with nodeHint := vad } : VadTable).find (w.startingVpn vad) =
      w.find startVpn := by
    rw [hs]
    rfl
  rw [miInsertVad]
  rw [hhint]
  obtain ⟨a,ha,-,hpage⟩ | ⟨q,node,hfind,rfl,hnode,hbefore,hafter⟩ := h'.find startVpn
  · exact absurd ⟨hpage.2,hpage.1.trans hse⟩ (hmeet a ha)
  rw [hfind]
  have hnl : vad∉labels q := by
    simpa [BTree.toList] using (toList_plug_perm .nil q).mem_iff.not.mp hf.not_mem
  have hzq : Zip (unpack w.mem) w.balancedRoot .nil q := by simpa using zip_plug.mpr h'.zip
  have hfuel : q.length<w.fuel := by
    have := length_path_le .nil q
    rw [VadTable.fuel,h'.count]
    omega
  obtain ⟨T,hrun,hTroot,hTcount,hzip⟩ := miInsert_spec hzq h'.balanced hf.ne_zero
    (hroot ▸ hf.ne_root) hnl hbal0 hf.aligned h'.alignedRoot h'.aligned hfuel
  obtain ⟨hbal,hlist,-⟩ := growFix_spec (t := .node .nil vad 0 .nil) h'.balanced
    (by simp [BTree.Balanced]) (by simp [BTree.height]) (.inl (by simp [BTree.height]))
  have hold : (plug .nil q).toList=before q++after q := by
    simp [toList_plug,BTree.toList]
  have hnew : (growFix (.node .nil vad 0 .nil) q).1.toList =
      before q++vad::after q := by
    rw [hlist,toList_plug]
    simp [BTree.toList]
  have hperm : (growFix (.node .nil vad 0 .nil) q).1.toList.Perm (vad::(plug .nil q).toList) := by
    rw [hnew,hold]
    exact perm_middle
  have hord : (growFix (.node .nil vad 0 .nil) q).1.toList.Pairwise fun a b =>
      w.endingVpn a<w.startingVpn b := by
    have hsorted := h'.ordered
    rw [hold] at hsorted
    obtain ⟨h1,h2,h3⟩ := pairwise_append.mp hsorted
    rw [hnew]
    refine pairwise_append.mpr ⟨h1,pairwise_cons.mpr ⟨fun b hb => ?_,h2⟩,
      fun a ha b hb => ?_⟩
    · have hlt := hafter b hb
      have hb' : b∈(plug .nil q).toList := by simp [hold,hb]
      have := hmeet b hb'
      have := (h'.range b hb').1
      omega
    · obtain rfl | hb := mem_cons.mp hb
      · rw [hs]
        exact hbefore a ha
      · exact h3 a ha b hb
  have hrange : ∀ a∈(growFix (.node .nil vad 0 .nil) q).1.toList,
      w.startingVpn a≤w.endingVpn a ∧ w.endingVpn a<2^20 := by
    intro a ha
    obtain rfl | ha := mem_cons.mp (hperm.mem_iff.mp ha)
    · omega
    · exact h'.range a ha
  have hlen := length_le_of_ordered hord hrange (fun _ _ => Nat.zero_le _) (Nat.zero_le _)
  rw [hperm.length_eq,length_cons] at hlen
  have hrun' : miInsertNode { w with nodeHint := vad } vad node (placeResult q) =
      some { w with toTable := T, nodeHint := vad } := by
    have hplace : rtlpInsertAvlTreeNode miOps w.fuel w.toTable vad node (placeResult q)=some T := by
      rw [rtlpInsertAvlTreeNode_place _ _ _ _ hnode,hrun]
    simp only [miInsertNode,VadTable.fuel] at hplace ⊢
    rw [hplace]
    rfl
  refine ⟨{ w with toTable := T, nodeHint := vad },(growFix (.node .nil vad 0 .nil) q).1,hrun',?_,
    hperm,hTroot.trans hroot,hstart,hending⟩
  refine ⟨?_,hbal,?_,?_,hord,hrange,?_,?_⟩
  · rw [hTroot]
    exact hzip
  · intro a ha
    obtain rfl | ha := mem_cons.mp (hperm.mem_iff.mp ha)
    · exact hf.aligned
    · exact h'.aligned a ha
  · rw [hTroot]
    exact h'.alignedRoot
  · have hcount := h'.count
    rw [hperm.length_eq,length_cons]
    bv_omega
  · have hmem : vad∈(growFix (.node .nil vad 0 .nil) q).1.toList := by simp [hnew]
    rw [if_neg]
    · exact hmem
    · intro hnil
      rw [hnil] at hmem
      simp [BTree.toList] at hmem

theorem VadTree.remove (h : VadTree v t) {node : Addr} (hn : node∈t.toList) :
    ∃ v' t', miRemoveNode v node=some v' ∧ VadTree v' t' ∧ t'.toList=t.toList.erase node ∧
      v'.balancedRoot=v.balancedRoot ∧ v'.startingVpn=v.startingVpn ∧
      v'.endingVpn=v.endingVpn := by
  obtain ⟨T,t',hrun,hroot,hcount,hzip,hbal,hlist⟩ := miDelete_spec h.zip h.balanced hn
    h.aligned (show _<v.fuel by rw [VadTable.fuel,h.count]; omega)
  have hsub : ∀ a∈t'.toList, a∈t.toList := fun a ha => by
    rw [hlist] at ha
    exact mem_of_mem_erase ha
  have hlen : t.toList.length=t'.toList.length+1 := by
    rw [hlist,length_erase_of_mem hn]
    have := length_pos_of_mem hn
    omega
  -- the tree without the hint
  have htree : ∀ hint : Addr, (if t' = .nil then hint=0 else hint∈t'.toList) →
      VadTree { v with
        toTable := { T with numberGenericTableElements := T.numberGenericTableElements-1 }
        nodeHint := hint } t' := by
    intro hint hhint
    refine ⟨?_,hbal,fun a ha => h.aligned a (hsub a ha),?_,?_,fun a ha => h.range a (hsub a ha),
      ?_,hhint⟩
    · rw [hroot]
      exact hzip
    · rw [hroot]
      exact h.alignedRoot
    · rw [hlist]
      exact h.ordered.sublist erase_sublist
    · have := h.count
      bv_omega
  have hzero : T.numberGenericTableElements-1=0 ↔ t' = .nil := by
    have hc : (T.numberGenericTableElements-1).toNat=t'.toList.length := by
      have := h.count
      bv_omega
    constructor
    · intro h0
      rw [h0] at hc
      cases t' with
      | nil => rfl
      | node l a b u => simp [BTree.toList] at hc
    · rintro rfl
      exact BitVec.eq_of_toNat_eq hc
  have hchild : miOps.child T.mem .right T.balancedRoot=root t' := by
    rw [hroot]
    exact hzip.path.2.2
  have hhint := h.hint
  rw [if_neg (by rintro rfl; simp [BTree.toList] at hn)] at hhint
  simp only [miRemoveNode,hrun,Option.bind_eq_bind,Option.bind_some,VadTable.rootNode]
  by_cases heq : v.nodeHint=node
  · rw [if_pos heq,hchild]
    refine ⟨_,t',rfl,htree _ ?_,hlist,hroot,rfl,rfl⟩
    by_cases hnil : t' = .nil
    · rw [if_pos hnil,if_pos (hzero.mpr hnil)]
    · rw [if_neg hnil,if_neg fun h0 => hnil (hzero.mp h0)]
      exact root_mem fun h0 => hnil (hzip.focus.root_eq_zero.mp h0)
  · rw [if_neg heq]
    have hmem : v.nodeHint∈t'.toList := by
      rw [hlist]
      exact (mem_erase_of_ne heq).mpr hhint
    refine ⟨_,t',rfl,htree v.nodeHint ?_,hlist,hroot,rfl,rfl⟩
    rw [if_neg]
    · exact hmem
    · rintro rfl
      simp [BTree.toList] at hmem

end Change

end Odyssey.Mm
