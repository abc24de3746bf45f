import Odyssey.Rtl.AvlOperations

/-! The generic tables of `lib/rtl/avltable.c`. A table takes the user data of a node as a
value of type `α`; `CompareRoutine` is a parameter, and the node that `AllocateRoutine` would
return (NULL when it fails) is an argument of the insertion. -/
namespace Odyssey.Avl
open AvlTree Function List Path

structure GenericTable (α : Type) extends Table RtlMem 32 32 where
  userData : Addr → α
  orderedPointer : Addr
  whichOrderedElement : BitVec 32
  restartKey : Addr
  deleteCount : BitVec 32
  /-- Nodes that `AllocateRoutine` gave out and `FreeRoutine` did not get back. -/
  allocated : List Addr

variable {α : Type} (compareRoutine : α → α → Ordering) {cut : Addr → Ordering} {r : Addr}

def rtlInitializeGenericTableAvl (mem : RtlMem) (userData : Addr → α) (root : Addr) :
    GenericTable α where
  balancedRoot := root
  mem := update mem root ⟨root,0,0,0⟩
  depthOfTree := 0
  numberGenericTableElements := 0
  userData := userData
  orderedPointer := 0
  whichOrderedElement := 0
  restartKey := 0
  deleteCount := 0
  allocated := []

def GenericTable.fuel (g : GenericTable α) : Nat := g.numberGenericTableElements.toNat+1

def userDataAddress (node : Addr) : Addr := node+16

def GenericTable.find (g : GenericTable α) (buffer : α) : Option (TableSearchResult × Addr) :=
  rtlpFindAvlTableNodeOrParent rtlOps (fun node => compareRoutine buffer (g.userData node)) g.fuel
    g.toTable

def rtlInsertElementGenericTableFullAvl (g : GenericTable α) (buffer : α)
    (newNode nodeOrParent : Addr) (searchResult : TableSearchResult) :
    Option (GenericTable α × Addr × Bool) :=
  if searchResult ≠ .foundNode then
    if newNode=0 then some (g, 0, false)
    else do
      let mem := update g.mem newNode ⟨0,0,0,0⟩
      let t ← rtlpInsertAvlTreeNode rtlOps g.fuel { g.toTable with mem := mem } newNode
        nodeOrParent searchResult
      some ({ g with
        toTable := t
        userData := update g.userData newNode buffer
        allocated := newNode::g.allocated }, userDataAddress newNode, true)
  else some (g, userDataAddress nodeOrParent, false)

def rtlInsertElementGenericTableAvl (g : GenericTable α) (buffer : α) (newNode : Addr) :
    Option (GenericTable α × Addr × Bool) := do
  let (searchResult, nodeOrParent) ← g.find compareRoutine buffer
  rtlInsertElementGenericTableFullAvl g buffer newNode nodeOrParent searchResult

def predecessorLoop (m : RtlMem) : Nat → Addr → Option Addr
  | 0, _ => none
  | fuel+1, child =>
    if rtlOps.isLeftChild m child then predecessorLoop m fuel (rtlOps.parent m child)
    else if rtlOps.isRightChild m child then some (rtlOps.parent m child)
    else some 0

def rtlRealPredecessor (m : RtlMem) (fuel : Nat) (links : Addr) : Option Addr :=
  if rtlOps.child m .left links≠0 then lastNode rtlOps m .right fuel (rtlOps.child m .left links)
  else predecessorLoop m fuel links

def GenericTable.nextRestartKey (g : GenericTable α) (node : Addr) : Option Addr :=
  if node=g.restartKey then rtlRealPredecessor g.mem g.fuel node else some g.restartKey

def rtlDeleteElementGenericTableAvl (g : GenericTable α) (buffer : α) :
    Option (GenericTable α × Bool) := do
  let (searchResult, node) ← g.find compareRoutine buffer
  if searchResult ≠ .foundNode then some (g, false)
  else do
    let restartKey ← g.nextRestartKey node
    let t ← rtlpDeleteAvlTreeNode rtlOps g.fuel g.toTable node
    some ({ g with
      toTable := { t with numberGenericTableElements := t.numberGenericTableElements-1 }
      restartKey := restartKey
      deleteCount := g.deleteCount+1
      whichOrderedElement := 0
      orderedPointer := 0
      allocated := g.allocated.erase node }, true)

def SearchPath (cut : Addr → Ordering) (p : Path Addr) : Prop :=
  ∀ c∈p, cut c.label=if c.side = .left then .lt else .gt

variable {t : BTree Addr} {p : Path Addr} {m : RtlMem}

/-- The search ends at a node with an equal key, or at an empty place. -/
theorem findLoop_spec (hz : Zip m r t p) (ht : root t≠0)
    (hp : SearchPath cut p) {fuel : Nat} (hf : t.toList.length<fuel) :
    (∃ a, findLoop rtlOps cut m fuel (root t)=some (.foundNode, a) ∧ cut a = .eq ∧
      a∈t.toList) ∨
    ∃ q, findLoop rtlOps cut m fuel (root t)=some (placeResult q, top r q) ∧ q≠[] ∧
      plug t p=plug .nil q ∧ SearchPath cut q := by
  induction t generalizing p fuel with
  | nil => exact absurd rfl ht
  | node l a b u ihl ihu =>
    obtain _ | fuel := fuel
    · simp at hf
    obtain ⟨hn,hl,hu⟩ := hz.focus
    simp only [BTree.toList,length_append,length_cons] at hf
    change (∃ x, findLoop rtlOps cut m (fuel+1) a=_ ∧ _) ∨
      ∃ q, findLoop rtlOps cut m (fuel+1) a=_ ∧ _
    rw [findLoop]
    cases hc : cut a with
    | lt =>
      have hp' : SearchPath cut (⟨.left,a,b,u⟩::p) := by
        intro c hm
        obtain rfl | hm := mem_cons.mp hm
        · simpa using hc
        · exact hp c hm
      simp only [hn.near]
      by_cases h0 : root l=0
      · rw [hl.root_eq_zero.mp h0]
        exact .inr ⟨⟨.left,a,b,u⟩::p,rfl,by simp,rfl,hp'⟩
      · rw [if_pos h0]
        obtain ⟨x,hx,hcx,hm⟩ | h := ihl (p := ⟨.left,a,b,u⟩::p)
          (zip_up.mpr hz) h0 hp' (show _<fuel by omega)
        · exact .inl ⟨x,hx,hcx,by simp [BTree.toList,hm]⟩
        · exact .inr h
    | gt =>
      have hp' : SearchPath cut (⟨.right,a,b,l⟩::p) := by
        intro c hm
        obtain rfl | hm := mem_cons.mp hm
        · simpa using hc
        · exact hp c hm
      simp only [show rtlOps.child m .right a=root u from hn.far]
      by_cases h0 : root u=0
      · rw [hu.root_eq_zero.mp h0]
        exact .inr ⟨⟨.right,a,b,l⟩::p,rfl,by simp,rfl,hp'⟩
      · rw [if_pos h0]
        obtain ⟨x,hx,hcx,hm⟩ | h := ihu (p := ⟨.right,a,b,l⟩::p)
          (zip_up.mpr hz) h0 hp' (show _<fuel by omega)
        · exact .inl ⟨x,hx,hcx,by simp [BTree.toList,hm]⟩
        · exact .inr h
    | eq => exact .inl ⟨a,rfl,hc,by simp [BTree.toList]⟩

section Order
variable {compareRoutine} {userData : Addr → α} {A B : List Addr} {b : BitVec 32} {n : Addr}

def Sorted (compareRoutine : α → α → Ordering) (userData : Addr → α) (l : List Addr) : Prop :=
  l.Pairwise fun a b => compareRoutine (userData a) (userData b) = .lt

/-- Along a tree in the order `R`, the comparison asks to go right at the nodes before the place
that the search finds and to go left at those after it. -/
theorem SearchPath.split_of_mono {R : Addr → Addr → Prop}
    (hlt : ∀ a b, R a b → cut a = .lt → cut b = .lt)
    (hgt : ∀ a b, R a b → cut b = .gt → cut a = .gt) (hp : SearchPath cut p)
    (hs : (before p++after p).Pairwise R) :
    (∀ a∈before p, cut a = .gt) ∧ ∀ a∈after p, cut a = .lt := by
  induction p with
  | nil => simp [Path.before,Path.after]
  | cons c p ih =>
    have hc := hp c (by simp)
    have hp' : SearchPath cut p := fun d hd => hp d (by simp [hd])
    rw [Path.before,Path.after] at hs ⊢
    cases hside : c.side with
    | left =>
      simp only [hside,if_pos,append_nil] at hs hc ⊢
      obtain ⟨h1,h2⟩ := ih hp'
        (hs.sublist (List.Sublist.append_left (sublist_append_right _ _) _))
      refine ⟨h1,?_⟩
      intro a ha
      obtain ha | ha := mem_append.mp ha
      · obtain rfl | ha := mem_cons.mp ha
        · exact hc
        · have := (pairwise_append.mp hs).2.1
          rw [cons_append,pairwise_cons] at this
          exact hlt _ a (this.1 a (by simp [ha])) hc
      · exact h2 a ha
    | right =>
      simp only [hside,nil_append] at hs hc ⊢
      obtain ⟨h1,h2⟩ := ih hp'
        (hs.sublist (List.Sublist.append_right (sublist_append_left _ _) _))
      refine ⟨?_,h2⟩
      intro a ha
      obtain ha | ha := mem_append.mp ha
      · exact h1 a ha
      · obtain ha | ha := mem_append.mp ha
        · have := (pairwise_append.mp (pairwise_append.mp hs).1).2.1
          exact hgt a c.label ((pairwise_append.mp this).2.2 a ha _ (by simp)) (by simpa using hc)
        · rw [mem_singleton.mp ha]
          simpa using hc

variable {buffer : α}

/-- The path to the place of a key has smaller keys before it and larger keys after it. -/
theorem SearchPath.split [Std.TransCmp compareRoutine]
    (hp : SearchPath (fun a => compareRoutine buffer (userData a)) p)
    (hs : Sorted compareRoutine userData (before p++after p)) :
    (∀ a∈before p, compareRoutine (userData a) buffer = .lt) ∧
      ∀ a∈after p, compareRoutine buffer (userData a) = .lt := by
  have hlt : ∀ a b, compareRoutine (userData a) (userData b) = .lt →
      compareRoutine buffer (userData a) = .lt → compareRoutine buffer (userData b) = .lt :=
    fun a b hab ha => Std.TransCmp.lt_trans ha hab
  have hgt : ∀ a b, compareRoutine (userData a) (userData b) = .lt →
      compareRoutine buffer (userData b) = .gt → compareRoutine buffer (userData a) = .gt :=
    fun a b hab hb => Std.OrientedCmp.gt_of_lt
      (Std.TransCmp.lt_trans hab (Std.OrientedCmp.lt_of_gt hb))
  obtain ⟨hbefore,hafter⟩ := hp.split_of_mono hlt hgt hs
  exact ⟨fun a ha => Std.OrientedCmp.lt_of_gt (hbefore a ha),hafter⟩

theorem Sorted.insert (h : Sorted compareRoutine userData (A++B))
    (hn : n∉A++B) (hA : ∀ a∈A, compareRoutine (userData a) buffer = .lt)
    (hB : ∀ b∈B, compareRoutine buffer (userData b) = .lt) :
    Sorted compareRoutine (update userData n buffer) (A++n::B) := by
  have hold : Sorted compareRoutine (update userData n buffer) (A++B) := by
    refine List.Pairwise.imp_of_mem ?_ h
    intro a b ha hb hab
    have hane : a≠n := fun e => hn (e ▸ ha)
    have hbne : b≠n := fun e => hn (e ▸ hb)
    simpa [hane,hbne] using hab
  obtain ⟨h1,h2,h3⟩ := pairwise_append.mp hold
  refine pairwise_append.mpr ⟨h1,pairwise_cons.mpr ⟨?_,h2⟩,?_⟩
  · intro b hb
    have hbne : b≠n := fun e => hn (by simp [← e,hb])
    simpa [hbne] using hB b hb
  · intro a ha b hb
    obtain rfl | hb := mem_cons.mp hb
    · have hane : a≠b := fun e => hn (by simp [← e,ha])
      simpa [hane] using hA a ha
    · exact h3 a ha b hb

/-- The table holds the tree `t`: links, balance factors, order, counts, and no other node is
allocated. -/
structure Holds (compareRoutine : α → α → Ordering) (g : GenericTable α) (t : BTree Addr) :
    Prop where
  zip : Zip g.mem g.balancedRoot t []
  balanced : t.Balanced
  sorted : Sorted compareRoutine g.userData t.toList
  count : g.numberGenericTableElements.toNat=t.toList.length
  depth : g.depthOfTree.toNat=t.height
  allocated : g.allocated.Perm t.toList

theorem height_le_length (t : BTree Addr) : t.height≤t.toList.length := by
  induction t with
  | nil => simp [BTree.height,BTree.toList]
  | node l a b r ihl ihr =>
    simp only [BTree.height,BTree.toList,length_append,length_cons]
    omega

theorem toNat_add_one {n : Nat} (h : b.toNat=n) (hn : n+1<2^32) : (b+1).toNat=n+1 := by
  bv_omega

theorem toNat_sub_one {n : Nat} (h : b.toNat=n+1) : (b-1).toNat=n := by
  bv_omega

/-- Addresses run out before the counters do. -/
theorem Zip.length_lt (h : Zip m r t []) : t.toList.length+1<2^32 := by
  have hnd : (0::r::t.toList).Nodup := by
    have hn := h.nodup
    simp only [labels,append_nil] at hn
    refine nodup_cons.mpr ⟨?_,hn⟩
    intro hm
    obtain h0 | h0 := mem_cons.mp hm
    · exact h.root_ne h0.symm
    · exact rep_ne_zero h.focus 0 h0 rfl
  have hcard := (hnd.map fun a b => BitVec.toFin_inj.mp).length_le_card
  simp only [length_map,length_cons,Fintype.card_fin] at hcard
  omega

variable {g : GenericTable α}

/-- The search in a table: an equal key is found, or the path to the place of a new one. -/
theorem Holds.find (h : Holds compareRoutine g t) (buffer : α) :
    (∃ a∈t.toList, g.find compareRoutine buffer=some (.foundNode, a) ∧
      compareRoutine buffer (g.userData a) = .eq) ∨
    ∃ q node, g.find compareRoutine buffer=some (placeResult q, node) ∧ t=plug .nil q ∧
      (q≠[] → node=top g.balancedRoot q) ∧
      SearchPath (fun a => compareRoutine buffer (g.userData a)) q := by
  unfold GenericTable.find rtlpFindAvlTableNodeOrParent
  by_cases h0 : g.numberGenericTableElements=0
  · have hlen : t.toList.length=0 := by rw [← h.count,h0]; rfl
    have ht : t = .nil := by
      cases t with
      | nil => rfl
      | node l a b u => simp [BTree.toList] at hlen
    exact .inr ⟨[],0,by rw [if_pos h0]; rfl,ht,by simp,by simp [SearchPath]⟩
  · have ht : root t≠0 := by
      intro hr
      refine h0 (BitVec.eq_of_toNat_eq ?_)
      rw [h.count,h.zip.focus.root_eq_zero.mp hr]
      rfl
    have hroot : rtlOps.child g.mem .right g.balancedRoot=root t := h.zip.path.2.2
    rw [if_neg h0,hroot]
    obtain ⟨a,ha,hc,hm⟩ | ⟨q,hq,hne,hp,hs⟩ := findLoop_spec h.zip ht
      (show SearchPath (fun a => compareRoutine buffer (g.userData a)) [] by simp [SearchPath])
      (show _<g.fuel by simp [GenericTable.fuel,h.count])
    · exact .inl ⟨a,hm,ha,hc⟩
    · exact .inr ⟨q,_,hq,hp,fun _ => rfl,hs⟩

theorem placeResult_ne_foundNode (q : Path Addr) : placeResult q ≠ .foundNode := by
  cases q with
  | nil => simp [placeResult]
  | cons c q => cases hc : c.side <;> simp [placeResult,hc]

/-- A key that is not in the table gets a node of its own. -/
theorem Holds.insertNew [Std.TransCmp compareRoutine] {q : Path Addr} {newNode node : Addr}
    (h : Holds compareRoutine g (plug .nil q))
    (hs : SearchPath (fun a => compareRoutine buffer (g.userData a)) q)
    (hnode : q≠[] → node=top g.balancedRoot q) (hn0 : newNode≠0)
    (hnr : newNode≠g.balancedRoot) (hna : newNode∉g.allocated) :
    ∃ g' t', rtlInsertElementGenericTableFullAvl g buffer newNode node (placeResult q) =
        some (g', userDataAddress newNode, true) ∧ Holds compareRoutine g' t' ∧
      t'.toList=before q++newNode::after q ∧
      g'.userData=update g.userData newNode buffer := by
  have hnt : newNode∉(plug .nil q).toList := fun hm => hna (h.allocated.mem_iff.mpr hm)
  have hnl : newNode∉labels q := by
    simpa [BTree.toList] using (toList_plug_perm .nil q).mem_iff.not.mp hnt
  set T : Table RtlMem 32 32 :=
    { g.toTable with mem := update g.mem newNode ⟨0,0,0,0⟩ } with hT
  have hzq : Zip T.mem T.balancedRoot .nil q := by
    have hz : Zip g.mem g.balancedRoot .nil q := by simpa using zip_plug.mpr h.zip
    refine hz.congr ?_
    intro a ha
    have hne : a≠newNode := by
      rintro rfl
      obtain ha | ha := mem_cons.mp ha
      · exact hnr ha
      · exact hnl (by simpa [BTree.toList] using ha)
    exact ⟨by simp [rtlOps,hT,hne],fun s => by simp [rtlOps,hT,hne],
      by simp [rtlOps,hT,hne]⟩
  have hfuel : q.length<g.fuel := by
    have := length_path_le .nil q
    rw [GenericTable.fuel,h.count]
    omega
  obtain ⟨m,hm,hzm⟩ := rtlpInsertAvlTreeNode_spec (n := newNode) hzq h.balanced
    hn0 hnr hnl (by simp [rtlOps,hT]) hfuel
  obtain ⟨hb,hl,hh⟩ := growFix_spec (t := .node .nil newNode 0 .nil) h.balanced
    (by simp [BTree.Balanced]) (by simp [BTree.height]) (.inl (by simp [BTree.height]))
  have hlist : (growFix (.node .nil newNode 0 .nil) q).1.toList =
      before q++newNode::after q := by
    rw [hl,toList_plug]
    simp [BTree.toList]
  have hold : (plug .nil q).toList=before q++after q := by
    simp [toList_plug,BTree.toList]
  have hlen := hzm.length_lt
  have hheight := height_le_length (growFix (.node .nil newNode 0 .nil) q).1
  refine ⟨_,(growFix (.node .nil newNode 0 .nil) q).1,by
    simp only [rtlInsertElementGenericTableFullAvl,if_pos (placeResult_ne_foundNode q),if_neg hn0]
    rw [rtlpInsertAvlTreeNode_place rtlOps g.fuel T newNode hnode,hm]
    rfl,⟨hzm,hb,?_,?_,?_,?_⟩,hlist,rfl⟩
  · rw [hlist]
    obtain ⟨h1,h2⟩ := hs.split (hold ▸ h.sorted)
    exact Sorted.insert (hold ▸ h.sorted) (hold ▸ hnt) h1 h2
  · have hc : (plug .nil q).toList.length+1 =
        (growFix (.node .nil newNode 0 .nil) q).1.toList.length := by
      rw [hold,hlist]
      simp
      omega
    rw [← hc] at hlen ⊢
    exact toNat_add_one h.count (by omega)
  · rw [hh] at hheight ⊢
    cases q with
    | nil => rfl
    | cons c q =>
      cases hg : (growFix (.node .nil newNode 0 .nil) (c::q)).2 with
      | false => exact h.depth
      | true =>
        exact toNat_add_one h.depth (by omega)
  · rw [hlist]
    exact (h.allocated.cons newNode).trans (hold ▸ perm_middle.symm)

/-- The climb from a node without a left child stops below the last node before it, which is
the table's own node when there is none. -/
theorem predecessorLoop_spec
    (hz : Zip m r t p) (ht : root t≠0) {fuel : Nat} (hf : p.length<fuel) :
    predecessorLoop m fuel (root t)=some ((before p).getLastD r) := by
  induction p generalizing t fuel with
  | nil =>
    obtain _ | fuel := fuel
    · simp at hf
    rw [predecessorLoop,hz.isLeftChild ht,hz.isRightChild ht,hz.parent_root ht]
    simp [topSide,top,before]
  | cons c p ih =>
    obtain _ | fuel := fuel
    · simp at hf
    rw [predecessorLoop,hz.isLeftChild ht,hz.isRightChild ht,hz.parent_root ht]
    cases hc : c.side with
    | left =>
      have hz' := zip_up.mp hz
      have := ih hz' (by simpa using hz.path.1.ne) (show _<fuel by simp at hf; omega)
      simpa [topSide,top,before,hc] using this
    | right => simp [topSide,top,before,hc]

/-- `RtlRealPredecessor` of a node of the tree. -/
theorem rtlRealPredecessor_spec {r n : Addr} (hz : Zip m r t [])
    (ht : t.toList=A++n::B) {fuel : Nat} (hf : t.toList.length<fuel) :
    rtlRealPredecessor m fuel n=some (A.getLastD r) := by
  obtain ⟨l,b,u,p,rfl,hzn,rfl,-⟩ := hz.at ht
  have hlen : p.length<fuel := lt_of_le_of_lt (length_path_le _ p) hf
  unfold rtlRealPredecessor
  rw [hzn.focus.1.near]
  by_cases h0 : root l=0
  · rw [hzn.focus.2.1.root_eq_zero.mp h0]
    simpa [root,BTree.toList] using predecessorLoop_spec hzn hzn.focus.1.ne hlen
  · have hl : l.toList.length<fuel := by
      rw [ht] at hf
      simp only [length_append,length_cons] at hf
      omega
    have hne : l.toList≠[] := ne_nil_of_mem (root_mem h0)
    rw [if_pos h0,lastNode_right hzn.focus.2.1 h0 hl]
    simp [getLastD_eq_getLast?,getLast?_append_of_ne_nil _ hne,getLast?_eq_some_getLast hne]

/-- The node that the search finds is taken out of the tree. -/
theorem Holds.deleteNode (h : Holds compareRoutine g t) (hn : n∈t.toList)
    (hf : g.find compareRoutine buffer=some (.foundNode, n)) :
    ∃ g' t', rtlDeleteElementGenericTableAvl compareRoutine g buffer=some (g', true) ∧
      Holds compareRoutine g' t' ∧ t'.toList=t.toList.erase n ∧ g'.userData=g.userData ∧
      g'.balancedRoot=g.balancedRoot ∧ g.nextRestartKey n=some g'.restartKey := by
  unfold rtlDeleteElementGenericTableAvl
  obtain ⟨m,t',shorter,hrun,hz',hb',hl',hh'⟩ := rtlpDeleteAvlTreeNode_spec h.zip h.balanced
    hn (show _<g.fuel by simp [GenericTable.fuel,h.count])
  obtain ⟨key,hkey⟩ : ∃ key, g.nextRestartKey n=some key := by
    by_cases hk : n=g.restartKey
    · obtain ⟨A,B,hAB⟩ := append_of_mem hn
      exact ⟨_,(if_pos hk).trans (rtlRealPredecessor_spec h.zip hAB
        (by simp [GenericTable.fuel,h.count]))⟩
    · exact ⟨_,if_neg hk⟩
  have hlen : t.toList.length=t'.toList.length+1 := by
    rw [hl',length_erase_of_mem hn]
    have := length_pos_of_mem hn
    omega
  refine ⟨_,t',by
    simp only [hf,Option.bind_eq_bind,Option.bind_some,ne_eq,not_true,if_false,hkey,hrun]
    rfl,⟨hz',hb',?_,?_,?_,?_⟩,hl',?_,?_,?_⟩
  · rw [hl']
    exact h.sorted.sublist erase_sublist
  · exact toNat_sub_one (h.count.trans hlen)
  · change (if shorter then g.depthOfTree-1 else g.depthOfTree).toNat=_
    cases shorter with
    | false => exact h.depth.trans hh'
    | true => exact toNat_sub_one (h.depth.trans hh')
  · rw [hl']
    exact h.allocated.erase n
  · rfl
  · rfl
  · exact hkey

theorem holds_of_empty (mem : RtlMem) (userData : Addr → α) {root : Addr} (hr : root≠0) :
    Holds compareRoutine (rtlInitializeGenericTableAvl mem userData root) .nil :=
  ⟨⟨trivial,by simp [rtlInitializeGenericTableAvl,RepPath,rtlOps,BalancedLinks.child,
      Odyssey.Avl.root],by simp [BTree.toList,labels],hr⟩,trivial,List.Pairwise.nil,rfl,rfl,
    List.Perm.refl _⟩

end Order

end Odyssey.Avl
