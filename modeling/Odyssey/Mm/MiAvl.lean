import Odyssey.Rtl.AvlOperations

/-! The accessors of `ntoskrnl/mm/ARM3/miavl.h`, which keep the balance of a node in the two
low bits of its parent word, and the simulation of the package over the separate fields of
`rtlavl.h` by the package over these accessors. -/
namespace Odyssey.Avl
open AvlTree Function List BTree

structure AddressNode where
  u1 : BitVec 32
  leftChild : Addr
  rightChild : Addr
  deriving DecidableEq, Repr

abbrev MiMem := Addr → AddressNode

namespace AddressNode

def parent (n : AddressNode) : Addr := n.u1 &&& ~~~3#32

def balance (n : AddressNode) : Int := (n.u1.extractLsb' 0 2).toInt

def setParent (n : AddressNode) (p : Addr) : AddressNode := { n with u1 := p ||| (n.u1 &&& 3#32) }

def setBalance (n : AddressNode) (b : Int) : AddressNode :=
  { n with u1 := (n.u1 &&& ~~~3#32) ||| (BitVec.ofInt 2 b).setWidth 32 }

def setChild (n : AddressNode) (s : Side) (v : Addr) : AddressNode :=
  match s with
  | .left => { n with leftChild := v }
  | .right => { n with rightChild := v }

def unpack (n : AddressNode) : BalancedLinks := ⟨n.parent,n.leftChild,n.rightChild,n.balance⟩

end AddressNode

def unpack (m : MiMem) : RtlMem := fun a => (m a).unpack

def miOps : NodeOps MiMem where
  parent m a := (m a).parent
  child m s a := (m a).unpack.child s
  balance m a := (m a).balance
  setParent m a v := update m a ((m a).setParent v)
  setChild m s a v := update m a ((m a).setChild s v)
  setBalance m a v := update m a ((m a).setBalance v)
  copyNodeData m a b := update m a (m b)
  -- the shared macro does not mask the word
  isRightChild m a := (m (m a).u1).rightChild=a

def Aligned (a : Addr) : Prop := a &&& 3#32=0

instance (a : Addr) : Decidable (Aligned a) := inferInstanceAs (Decidable (_=_))

section Words

variable {p u : BitVec 32}

theorem getElem_three {i : Nat} (hi : i<32) : (3#32)[i]=decide (i<2) := by
  revert i
  decide

theorem getElem_aligned (hp : p &&& 3#32=0) {i : Nat} (hi : i<32) (h2 : i<2) : p[i]=false := by
  have hz : (p &&& 3#32)[i]=false := by rw [hp]; simp
  simpa only [BitVec.getElem_and,getElem_three,h2,decide_true,Bool.and_true] using hz

theorem mask_or_low (hp : p &&& 3#32=0) : (p ||| (u &&& 3#32)) &&& ~~~3#32=p := by
  ext i hi
  simp only [BitVec.getElem_and,BitVec.getElem_or,BitVec.getElem_not,getElem_three]
  by_cases h2 : i<2
  · simp [h2,getElem_aligned hp]
  · simp [h2]

theorem low_or_mask (hp : p &&& 3#32=0) :
    (p ||| (u &&& 3#32)).extractLsb' 0 2=u.extractLsb' 0 2 := by
  ext i hi
  have h32 : i<32 := by omega
  simp only [BitVec.getElem_extractLsb',Nat.zero_add,BitVec.getLsbD_eq_getElem h32,
    BitVec.getElem_or,BitVec.getElem_and,getElem_three,getElem_aligned hp h32 hi]
  simp [hi]

theorem mask_mask_or (b : BitVec 2) :
    (u &&& ~~~3#32 ||| b.setWidth 32) &&& ~~~3#32=u &&& ~~~3#32 := by
  ext i hi
  simp only [BitVec.getElem_and,BitVec.getElem_or,BitVec.getElem_not,getElem_three,
    BitVec.getElem_setWidth]
  by_cases h2 : i<2
  · simp [h2]
  · simp [h2,BitVec.getLsbD_of_ge b i (by omega)]

theorem low_mask_or (b : BitVec 2) : (u &&& ~~~3#32 ||| b.setWidth 32).extractLsb' 0 2=b := by
  ext i hi
  have h32 : i<32 := by omega
  simp only [BitVec.getElem_extractLsb',Nat.zero_add,BitVec.getLsbD_eq_getElem h32,
    BitVec.getElem_or,BitVec.getElem_and,BitVec.getElem_not,BitVec.getElem_setWidth,
    getElem_three]
  simp [hi]

theorem mask_aligned (u : BitVec 32) : u &&& ~~~3#32 &&& 3#32=0 := by
  ext i hi
  simp only [BitVec.getElem_and,BitVec.getElem_not]
  simp

theorem mask_eq_self (hp : p.extractLsb' 0 2=0) : p &&& ~~~3#32=p := by
  ext i hi
  simp only [BitVec.getElem_and,BitVec.getElem_not,getElem_three]
  by_cases h2 : i<2
  · have : (p.extractLsb' 0 2)[i]=false := by rw [hp]; simp
    simp only [BitVec.getElem_extractLsb',Nat.zero_add,BitVec.getLsbD_eq_getElem hi] at this
    simp [this]
  · simp [h2]

theorem low_eq_zero (hp : p.extractLsb' 0 2=0) : p &&& 3#32=0 := by
  rw [← mask_eq_self hp]
  exact mask_aligned p

end Words

section Accessors
variable (m : MiMem) (s : Side) (a b v : Addr)

@[simp] theorem miOps_parent : miOps.parent m a=rtlOps.parent (unpack m) a := (rfl)

@[simp] theorem miOps_child : miOps.child m s a=rtlOps.child (unpack m) s a := (rfl)

@[simp] theorem miOps_balance : miOps.balance m a=rtlOps.balance (unpack m) a := (rfl)

@[simp] theorem miOps_isLeftChild : miOps.isLeftChild m a=rtlOps.isLeftChild (unpack m) a := (rfl)

theorem unpack_update (n : AddressNode) : unpack (update m a n)=update (unpack m) a n.unpack := by
  funext x
  by_cases h : x=a <;> simp [unpack,h]

@[simp] theorem unpack_copyNodeData :
    unpack (miOps.copyNodeData m a b)=rtlOps.copyNodeData (unpack m) a b :=
  unpack_update m a (m b)

@[simp] theorem unpack_setChild :
    unpack (miOps.setChild m s a v)=rtlOps.setChild (unpack m) s a v := by
  cases s <;> exact unpack_update m a _

theorem unpack_setParent (hv : Aligned v) :
    unpack (miOps.setParent m a v)=rtlOps.setParent (unpack m) a v := by
  refine (unpack_update m a _).trans (congrArg _ ?_)
  simp only [AddressNode.unpack,AddressNode.setParent,AddressNode.parent,AddressNode.balance,
    mask_or_low hv,low_or_mask hv]
  rfl

theorem unpack_setBalance {i : Int} (hi : i=0 ∨ i=1 ∨ i = -1) :
    unpack (miOps.setBalance m a i)=rtlOps.setBalance (unpack m) a i := by
  have hb : (BitVec.ofInt 2 i).toInt=i := by
    obtain rfl | rfl | rfl := hi <;> rfl
  refine (unpack_update m a _).trans (congrArg _ ?_)
  simp only [AddressNode.unpack,AddressNode.setBalance,AddressNode.parent,AddressNode.balance,
    mask_mask_or,low_mask_or,hb]
  rfl

theorem aligned_parent : Aligned (rtlOps.parent (unpack m) a) := mask_aligned _

/-- At a node with balance bits 0 the unmasked word is the parent. -/
theorem miOps_isRightChild (h : rtlOps.balance (unpack m) a=0) :
    miOps.isRightChild m a=rtlOps.isRightChild (unpack m) a := by
  have hlow : (m a).u1.extractLsb' 0 2=0 := BitVec.eq_of_toInt_eq h
  have hpar : (m a).parent=(m a).u1 := mask_eq_self hlow
  simp only [miOps,rtlOps,unpack,AddressNode.unpack,hpar]

end Accessors

theorem unpack_ite (c : Prop) [Decidable c] (m m' : MiMem) :
    unpack (if c then m else m')=if c then unpack m else unpack m' := by
  by_cases h : c <;> simp [h]

variable {node : Addr} {m : MiMem} {s : Side}

theorem unpack_promote (hn : Aligned node) :
    unpack (rtlPromoteAvlTreeNode miOps m node)=rtlPromoteAvlTreeNode rtlOps (unpack m) node := by
  simp [rtlPromoteAvlTreeNode,unpack_ite,unpack_setParent _ _ _ hn,
    unpack_setParent _ _ _ (aligned_parent _ _)]

/-- A rotation reads the child on the heavy side, and a child of that. -/
theorem unpack_rebalance (hb : rtlOps.balance (unpack m) node=s.weight)
    (hc : Aligned (rtlOps.child (unpack m) s node))
    (hsub : Aligned (rtlOps.child (unpack m) s.flip (rtlOps.child (unpack m) s node))) :
    unpack (rtlpRebalanceAvlTreeNode miOps m node).1 =
        (rtlpRebalanceAvlTreeNode rtlOps (unpack m) node).1 ∧
      (rtlpRebalanceAvlTreeNode miOps m node).2 =
        (rtlpRebalanceAvlTreeNode rtlOps (unpack m) node).2 := by
  have hset : ∀ (m' : MiMem) a i, i=0 ∨ i=s.weight ∨ i = -s.weight →
      unpack (miOps.setBalance m' a i)=rtlOps.setBalance (unpack m') a i := by
    intro m' a i hi
    refine unpack_setBalance m' a ?_
    obtain hw | hw := s.weight_cases <;> omega
  have hside : (if s.weight=1 then Side.right else .left)=s := by
    cases s <;> rfl
  unfold rtlpRebalanceAvlTreeNode
  simp only [miOps_balance,miOps_child,hb,hside,unpack_promote hsub]
  split_ifs <;> simp [hset,unpack_promote hc,unpack_promote hsub]

section Simulation
variable {dw cw dw' cw' : Nat} {searchResult : TableSearchResult} {r a : Addr} {n : Addr}

structure Sim (T : Table MiMem dw cw) (T' : Table RtlMem dw' cw') : Prop where
  root : T.balancedRoot=T'.balancedRoot
  mem : unpack T.mem=T'.mem

def AlignedTree (t : BTree Addr) : Prop := ∀ a∈t.toList, Aligned a

variable {t : BTree Addr} {p : Path Addr}

theorem Zip.aligned_child {m : RtlMem}
    (hz : Zip m r t p) (hal : AlignedTree (plug t p)) (ha : a∈(plug t p).toList) (s : Side) :
    Aligned (rtlOps.child m s a) := by
  obtain ⟨l,b,u,q,hq⟩ := exists_focus ha
  have hzn : Zip m r (.node l a b u) q := by
    rw [← append_nil p,zip_plug,hq,← zip_plug,append_nil] at hz
    exact hz
  rw [hq] at hal
  have hsub : ∀ w : BTree Addr, (∀ z∈w.toList, z∈(plug (.node l a b u) q).toList) →
      Aligned (Odyssey.Avl.root w) := by
    intro w hw
    by_cases h0 : Odyssey.Avl.root w=0
    · rw [h0]
      decide
    · exact hal _ (hw _ (root_mem h0))
  cases s with
  | left =>
    rw [hzn.focus.1.near]
    exact hsub l fun z hz => by simp [toList_plug,toList,hz]
  | right =>
    rw [show rtlOps.child m .right a=Odyssey.Avl.root u from hzn.focus.1.far]
    exact hsub u fun z hz => by simp [toList_plug,toList,hz]

/-- The rotation at a node that is heavy on a nonempty side. -/
theorem Zip.unpack_rebalance {x o : BTree Addr}
    (hz : Zip (unpack m) r x (⟨s,a,s.weight,o⟩::p)) (hx : root x≠0)
    (hal : AlignedTree (plug x (⟨s,a,s.weight,o⟩::p))) :
    unpack (rtlpRebalanceAvlTreeNode miOps m a).1 =
        (rtlpRebalanceAvlTreeNode rtlOps (unpack m) a).1 ∧
      (rtlpRebalanceAvlTreeNode miOps m a).2 =
        (rtlpRebalanceAvlTreeNode rtlOps (unpack m) a).2 := by
  have hchild : rtlOps.child (unpack m) s a=root x := hz.path.1.near
  have ha : a∈(plug x (⟨s,a,s.weight,o⟩::p)).toList := by
    rw [plug,toList_plug]
    simp
  have hxm : root x∈(plug x (⟨s,a,s.weight,o⟩::p)).toList := by
    rw [toList_plug]
    simp [root_mem hx]
  refine Odyssey.Avl.unpack_rebalance hz.path.1.balance (hz.aligned_child hal ha s) ?_
  rw [hchild]
  exact hz.aligned_child hal hxm _

variable {T' : Table RtlMem dw' cw'} {T : Table MiMem dw cw}

/-- The insertion loops of the two variants run in step. -/
theorem insertLoop_sim (hs : Sim T T') (h : InsertHead T' t p) (hal : AlignedTree (plug t p))
    (fuel : Nat) :
    Option.Rel Sim (insertLoop miOps fuel T (root t) (top T'.balancedRoot p))
      (insertLoop rtlOps fuel T' (root t) (top T'.balancedRoot p)) := by
  induction fuel generalizing T T' t p with
  | zero => exact .none
  | succ fuel ih =>
    obtain ⟨hr,hm⟩ := hs
    rw [insertLoop,insertLoop]
    simp only [miOps_isLeftChild,miOps_balance,miOps_parent,hm]
    rw [weight_topSide h.zip h.root_ne]
    have hw : ∀ a, unpack (miOps.setBalance T.mem a (topSide p).weight) =
        rtlOps.setBalance T'.mem a (topSide p).weight := by
      intro a
      rw [← hm]
      exact unpack_setBalance _ _ (.inr (Side.weight_cases _))
    have h0 : ∀ a, unpack (miOps.setBalance T.mem a 0)=rtlOps.setBalance T'.mem a 0 := by
      intro a
      rw [← hm]
      exact unpack_setBalance _ _ (.inl rfl)
    simp only [hw,h0]
    by_cases hb : rtlOps.balance T'.mem (top T'.balancedRoot p)=0
    · rw [if_pos hb,if_pos hb]
      cases p with
      | nil =>
        rw [show top T'.balancedRoot []=T'.balancedRoot from rfl,h.sentinel] at hb
        omega
      | cons c p =>
        have hc := h.climb (h.zip.path.1.balance.symm.trans hb)
        rw [show rtlOps.parent (rtlOps.setBalance T'.mem (top T'.balancedRoot (c::p))
          (topSide (c::p)).weight) (top T'.balancedRoot (c::p))=top T'.balancedRoot p from
          hc.zip.parent_join]
        have hal' : AlignedTree (plug (join c.side c.label c.side.weight t c.sibling) p) := by
          intro a ha
          rw [toList_plug,toList_join] at ha
          exact hal a (by rw [plug,toList_plug]; exact ha)
        have hsim : Sim { T with mem := miOps.setBalance T.mem c.label c.side.weight }
            { T' with mem := rtlOps.setBalance T'.mem c.label c.side.weight } := ⟨hr,hw c.label⟩
        have hrec := ih hsim hc hal'
        rw [root_join] at hrec
        exact hrec
    · rw [if_neg hb,if_neg hb]
      by_cases hb' : rtlOps.balance T'.mem (top T'.balancedRoot p)≠(topSide p).weight
      · rw [if_pos hb',if_pos hb']
        exact .some ⟨hr,h0 _⟩
      · rw [if_neg hb',if_neg hb']
        cases p with
        | nil =>
          refine absurd ?_ hb'
          simp [top,topSide,Side.weight,h.sentinel]
        | cons c p =>
          have hc : c.balance=c.side.weight := h.zip.path.1.balance.symm.trans (not_not.mp hb')
          obtain ⟨hz,-⟩ := h.overweight hc
          rw [← hm] at hz
          rw [plug,hc] at hal
          exact .some ⟨hr,by rw [← hm]; exact (hz.unpack_rebalance h.root_ne hal).1⟩

def rightChildUses {M : Type} (ops : NodeOps M) : Nat → Table M dw cw → Addr → Int → List (M × Addr)
  | 0, _, _, _ => []
  | fuel+1, t, parentNode, balance =>
    match deleteTurn ops t parentNode balance with
    | .done _ => []
    | .climb m node => (m, node)::rightChildUses ops fuel { t with mem := m } (ops.parent m node)
        (if ops.isRightChild m node then 1 else -1)

inductive TurnSim : DeleteTurn MiMem dw cw → DeleteTurn RtlMem dw' cw' → Prop where
  | done {T : Table MiMem dw cw} {T' : Table RtlMem dw' cw'} (h : Sim T T') :
    TurnSim (.done T) (.done T')
  | climb {m : MiMem} {node : Addr} : TurnSim (.climb m node) (.climb (unpack m) node)

theorem turnSim_rotate {r : MiMem × Bool} {r' : RtlMem × Bool}
    (hr : T.balancedRoot=T'.balancedRoot) (h1 : unpack r.1=r'.1) (h2 : r.2=r'.2) :
    TurnSim (if r.2 then .done { T with mem := r.1 }
        else .climb r.1 (rtlOps.parent (unpack r.1) node))
      (if r'.2 then .done { T' with mem := r'.1 } else .climb r'.1 (rtlOps.parent r'.1 node)) := by
  obtain ⟨m,b⟩ := r
  obtain ⟨m',b'⟩ := r'
  cases h1
  cases h2
  cases b with
  | false => exact .climb
  | true => exact .done ⟨hr,rfl⟩

theorem deleteTurn_sim (hs : Sim T T') (h : DeleteHead T' t p) (hal : AlignedTree (plug t p)) :
    TurnSim (deleteTurn miOps T (top T'.balancedRoot p) (topSide p).weight)
      (deleteTurn rtlOps T' (top T'.balancedRoot p) (topSide p).weight) := by
  obtain ⟨hr,hm⟩ := hs
  have hset : ∀ a i, i=0 ∨ i = -(topSide p).weight →
      unpack (miOps.setBalance T.mem a i)=rtlOps.setBalance T'.mem a i := by
    intro a i hi
    rw [← hm]
    refine unpack_setBalance _ _ ?_
    obtain hw | hw := (topSide p).weight_cases <;> omega
  unfold deleteTurn
  simp only [miOps_balance,miOps_parent,hm]
  by_cases hb : rtlOps.balance T'.mem (top T'.balancedRoot p)=(topSide p).weight
  · rw [if_pos hb,if_pos hb,← hset _ _ (.inl rfl)]
    exact .climb
  · rw [if_neg hb,if_neg hb]
    by_cases hb' : rtlOps.balance T'.mem (top T'.balancedRoot p)=0
    · rw [if_pos hb',if_pos hb']
      exact .done ⟨hr,hset _ _ (.inr rfl)⟩
    · rw [if_neg hb',if_neg hb']
      cases p with
      | nil => exact absurd h.sentinel hb'
      | cons c p =>
        have hc : rtlOps.balance T'.mem c.label=c.balance := h.zip.path.1.balance
        obtain ⟨hz,-,htall⟩ := h.overweight (hc ▸ hb) (hc ▸ hb')
        have hne : root c.sibling≠0 := by
          intro h0
          rw [hz.focus.root_eq_zero.mp h0] at htall
          simp [height] at htall
        have hal' : AlignedTree (plug c.sibling
            (⟨c.side.flip,c.label,c.side.flip.weight,t⟩::p)) := by
          intro a ha
          rw [plug,join_flip,toList_plug,toList_join] at ha
          exact hal a (by rw [plug,toList_plug]; exact ha)
        rw [← hm] at hz
        obtain ⟨h1,h2⟩ := hz.unpack_rebalance hne hal'
        rw [hm] at h1 h2
        exact turnSim_rotate hr h1 h2

/-- The deletion loops run in step, and the unmasked macro meets balance bits 0 only. -/
theorem deleteLoop_sim (hs : Sim T T') (h : DeleteHead T' t p) (hal : AlignedTree (plug t p))
    (fuel : Nat) :
    Option.Rel Sim (deleteLoop miOps fuel T (top T'.balancedRoot p) (topSide p).weight)
        (deleteLoop rtlOps fuel T' (top T'.balancedRoot p) (topSide p).weight) ∧
      ∀ u∈rightChildUses miOps fuel T (top T'.balancedRoot p) (topSide p).weight,
        (u.1 u.2).u1 &&& 3#32=0 := by
  induction fuel generalizing T T' t p with
  | zero => exact ⟨.none,by simp [rightChildUses]⟩
  | succ fuel ih =>
    have hturn := deleteTurn_sim hs h hal
    rw [deleteLoop,deleteLoop,rightChildUses]
    obtain ⟨m,hm,-⟩ | ⟨m,t',c,p',rfl,hm,h',hne,hb0,hfix⟩ := h.turn
    · rw [hm] at hturn ⊢
      cases hmi : deleteTurn miOps T (top T'.balancedRoot p) (topSide p).weight with
      | done T₁ =>
        rw [hmi] at hturn
        cases hturn with
        | done hsim => exact ⟨.some hsim,by simp⟩
      | climb m₁ node =>
        rw [hmi] at hturn
        cases hturn
    · rw [hm] at hturn ⊢
      cases hmi : deleteTurn miOps T (top T'.balancedRoot (c::p'))
          (topSide (c::p')).weight with
      | done T₁ =>
        rw [hmi] at hturn
        cases hturn
      | climb m₁ node =>
        rw [hmi] at hturn
        cases hturn with
        | climb =>
          have hal' : AlignedTree (plug t' p') := by
            intro a ha
            rw [← h'.toList_shrinkFix,← hfix,h.toList_shrinkFix] at ha
            exact hal a ha
          have hsim : Sim { T with mem := m₁ } { T' with mem := unpack m₁ } := ⟨hs.root,rfl⟩
          obtain ⟨hrel,huses⟩ := ih hsim h' hal'
          dsimp only
          rw [miOps_isRightChild _ _ hb0,weight_topSide' h'.zip hne,miOps_parent,
            h'.zip.parent_root hne]
          refine ⟨hrel,?_⟩
          intro u hu
          obtain rfl | hu := mem_cons.mp hu
          · exact low_eq_zero (BitVec.eq_of_toInt_eq hb0)
          · exact huses u hu

theorem lastNode_unpack (m : MiMem) (s : Side) (fuel : Nat) (a : Addr) :
    lastNode miOps m s fuel a=lastNode rtlOps (unpack m) s fuel a := by
  induction fuel generalizing a with
  | zero => rfl
  | succ fuel ih =>
    rw [lastNode,lastNode,miOps_child]
    by_cases h0 : rtlOps.child (unpack m) s a≠0
    · rw [if_pos h0,if_pos h0,ih]
    · rw [if_neg h0,if_neg h0]

theorem pickDeleteNode_unpack (m : MiMem) (fuel : Nat) (a : Addr) :
    pickDeleteNode miOps fuel m a=pickDeleteNode rtlOps fuel (unpack m) a := by
  simp [pickDeleteNode,lastNode_unpack]

theorem keptSide_unpack (m : MiMem) (d : Addr) :
    keptSide miOps m d=keptSide rtlOps (unpack m) d := by
  simp [keptSide]

theorem unpack_unhookNode (m : MiMem) (d : Addr) :
    unpack (unhookNode miOps m d)=unhookNode rtlOps (unpack m) d := by
  simp [unhookNode,keptSide_unpack,unpack_ite,unpack_setParent _ _ _ (aligned_parent _ _)]

theorem unpack_replaceNode (m : MiMem) {d : Addr} (hd : Aligned d) (n : Addr) :
    unpack (replaceNode miOps m d n)=replaceNode rtlOps (unpack m) d n := by
  simp [replaceNode,unpack_ite,unpack_setParent _ _ _ hd]

/-- `RtlpInsertAvlTreeNode` in both variants. -/
theorem rtlpInsertAvlTreeNode_sim
    (hs : Sim T T') (hz : Zip T'.mem T'.balancedRoot .nil p)
    (hbal : (plug .nil p).Balanced) (hn0 : n≠0) (hnr : n≠T'.balancedRoot)
    (hnp : n∉Path.labels p) (hb : rtlOps.balance T'.mem n=0) (hna : Aligned n)
    (hra : Aligned T'.balancedRoot) (hal : AlignedTree (plug .nil p)) (fuel : Nat) :
    Option.Rel Sim
      (rtlpInsertAvlTreeNode miOps fuel T n (top T'.balancedRoot p) (placeResult p))
      (rtlpInsertAvlTreeNode rtlOps fuel T' n (top T'.balancedRoot p) (placeResult p)) := by
  have hattach : ∀ s q, Aligned q → unpack (miOps.insertAsChild (miOps.setChild
      (miOps.setChild T.mem .right n 0) .left n 0) s q n)=attachLeaf T'.mem s q n := by
    intro s q hq
    simp [NodeOps.insertAsChild,unpack_setParent _ _ _ hq,hs.mem,attachLeaf]
  cases p with
  | nil =>
    refine .some ⟨hs.root,?_⟩
    simp only [hs.root]
    exact hattach .right _ hra
  | cons c p =>
    obtain ⟨hnot,hside⟩ := placeResult_cons c p
    rw [rtlpInsertAvlTreeNode_below hnot,rtlpInsertAvlTreeNode_below hnot,hside]
    have hc : Aligned c.label := hal _ (by rw [plug,toList_plug]; simp)
    have hmem : unpack (miOps.setBalance (miOps.insertAsChild (miOps.setChild
        (miOps.setChild T.mem .right n 0) .left n 0) c.side c.label n) T.balancedRoot (-1)) =
        rtlOps.setBalance (attachLeaf T'.mem c.side c.label n) T'.balancedRoot (-1) := by
      rw [unpack_setBalance _ _ (.inr (.inr rfl)),hattach _ _ hc,hs.root]
    have hsim : Sim
        { T with
          mem := miOps.setBalance (miOps.insertAsChild (miOps.setChild
            (miOps.setChild T.mem .right n 0) .left n 0) c.side c.label n) T.balancedRoot (-1)
          numberGenericTableElements := T.numberGenericTableElements+1 }
        { T' with
          mem := rtlOps.setBalance (attachLeaf T'.mem c.side c.label n) T'.balancedRoot (-1)
          numberGenericTableElements := T'.numberGenericTableElements+1 } := ⟨hs.root,hmem⟩
    refine insertLoop_sim hsim (hz.insertHead hbal hn0 hnr hnp hb) ?_ fuel
    intro a ha
    rw [toList_plug] at ha
    simp only [toList,nil_append,append_assoc,cons_append,mem_append,mem_cons] at ha
    obtain ha | rfl | ha := ha
    · exact hal a (by rw [toList_plug]; simp [ha])
    · exact hna
    · exact hal a (by rw [toList_plug]; simp [ha])

def deleteUses {M : Type} (ops : NodeOps M) (fuel : Nat) (t : Table M dw cw) (node : Addr) :
    List (M × Addr) :=
  match pickDeleteNode ops fuel t.mem node with
  | none => []
  | some deleteNode =>
    rightChildUses ops fuel
      { t with mem := ops.setBalance (unhookNode ops t.mem deleteNode) t.balancedRoot 0 }
      (ops.parent t.mem deleteNode) (if ops.isLeftChild t.mem deleteNode then -1 else 1)

/-- `RtlpDeleteAvlTreeNode` in both variants. -/
theorem rtlpDeleteAvlTreeNode_sim
    (hs : Sim T T') (hz : Zip T'.mem T'.balancedRoot t []) (hb : t.Balanced)
    (hn : n∈t.toList) (hal : AlignedTree t) {fuel : Nat} (hf : t.toList.length<fuel) :
    Option.Rel Sim (rtlpDeleteAvlTreeNode miOps fuel T n) (rtlpDeleteAvlTreeNode rtlOps fuel T' n) ∧
      ∀ u∈deleteUses miOps fuel T n, (u.1 u.2).u1 &&& 3#32=0 := by
  obtain ⟨d,bd,x,p,hpick,rfl,-⟩ := pickDeleteNode_spec hz hn hf
  have hzd : Zip T'.mem T'.balancedRoot (join (keptSide rtlOps T'.mem d) d bd x .nil) p := by
    simpa using zip_plug.mpr hz
  have hd := (rep_join.mp hzd.focus).1
  have hda : Aligned d := hal d (by rw [toList_plug]; simp)
  have hw : (if rtlOps.isLeftChild T'.mem d then (-1 : Int) else 1)=(topSide p).weight := by
    simpa using weight_topSide hzd (by simpa using hd.ne)
  have hpick' : pickDeleteNode miOps fuel T.mem n=some d := by
    rw [pickDeleteNode_unpack,hs.mem,hpick]
  have hmem : unpack (miOps.setBalance (unhookNode miOps T.mem d) T.balancedRoot 0) =
      rtlOps.setBalance (unhookNode rtlOps T'.mem d) T'.balancedRoot 0 := by
    rw [unpack_setBalance _ _ (.inl rfl),unpack_unhookNode,hs.mem,hs.root]
  have halx : AlignedTree (plug x p) := by
    intro a ha
    refine hal a ?_
    rw [toList_plug] at ha ⊢
    simp only [mem_append,mem_join] at ha ⊢
    tauto
  have hsim : Sim
      { T with mem := miOps.setBalance (unhookNode miOps T.mem d) T.balancedRoot 0 }
      { T' with mem := rtlOps.setBalance (unhookNode rtlOps T'.mem d) T'.balancedRoot 0 } :=
    ⟨hs.root,hmem⟩
  obtain ⟨hrel,huses⟩ := deleteLoop_sim hsim (hzd.deleteHead hb) halx fuel
  constructor
  · simp only [rtlpDeleteAvlTreeNode,hpick,hpick',Option.bind_eq_bind,Option.bind_some,
      miOps_parent,miOps_isLeftChild,hs.mem,hd.parent,hw]
    revert hrel
    generalize deleteLoop miOps fuel _ _ _=o
    generalize deleteLoop rtlOps fuel _ _ _=o'
    intro hrel
    cases hrel with
    | none => exact .none
    | some hsim' =>
      by_cases hnd : n=d
      · simpa [hnd] using Option.Rel.some hsim'
      · simp only [Option.bind_some,if_neg hnd]
        exact .some ⟨hsim'.root,by rw [unpack_replaceNode _ hda,hsim'.mem]⟩
  · simp only [deleteUses,hpick',miOps_parent,miOps_isLeftChild,hs.mem,hd.parent,hw]
    exact huses

structure TreeState (M : Type) (dw cw : Nat) extends Table M dw cw where
  nodes : List Addr

inductive TreeStep where
  | insert (newNode nodeOrParent : Addr) (searchResult : TableSearchResult)
  | delete (node : Addr)

def TreeStep.run {M : Type} (ops : NodeOps M) (x : TreeState M dw cw) :
    TreeStep → Option (TreeState M dw cw)
  | .insert newNode nodeOrParent searchResult =>
    (rtlpInsertAvlTreeNode ops (x.nodes.length+1) x.toTable newNode nodeOrParent
      searchResult).map fun t => { toTable := t, nodes := newNode::x.nodes }
  | .delete node =>
    (rtlpDeleteAvlTreeNode ops (x.nodes.length+1) x.toTable node).map
      fun t => { toTable := t, nodes := x.nodes.erase node }

def TreeStep.uses {M : Type} (ops : NodeOps M) (x : TreeState M dw cw) : TreeStep → List (M × Addr)
  | .insert .. => []
  | .delete node => deleteUses ops (x.nodes.length+1) x.toTable node

def emptyPlace (y : TreeState RtlMem dw cw) (nodeOrParent : Addr) : TableSearchResult → Bool
  | .emptyTree => y.nodes=[]
  | .foundNode => false
  | .insertAsLeft => nodeOrParent∈y.nodes ∧ rtlOps.child y.mem .left nodeOrParent=0
  | .insertAsRight => nodeOrParent∈y.nodes ∧ rtlOps.child y.mem .right nodeOrParent=0

/-- The arguments that the callers of the package pass: a node that is not in the tree, with
balance 0, and the empty place that a search reports; or a node of the tree. -/
def TreeStep.legal (y : TreeState RtlMem dw cw) : TreeStep → Bool
  | .insert newNode nodeOrParent searchResult =>
    newNode≠0 ∧ Aligned newNode ∧ newNode≠y.balancedRoot ∧ newNode∉y.nodes ∧
      rtlOps.balance y.mem newNode=0 ∧ emptyPlace y nodeOrParent searchResult
  | .delete node => node∈y.nodes

/-- The two variants hold the same balanced tree of aligned nodes. -/
structure InStep (x : TreeState MiMem dw cw) (y : TreeState RtlMem dw' cw') (t : BTree Addr) :
    Prop where
  sim : Sim x.toTable y.toTable
  zip : Zip y.mem y.balancedRoot t []
  balanced : t.Balanced
  aligned : AlignedTree t
  aligned_root : Aligned y.balancedRoot
  nodes : y.nodes.Perm t.toList
  same_nodes : x.nodes=y.nodes

theorem exists_place {m : RtlMem} {r q : Addr} (hz : Zip m r t [])
    (hq : q∈t.toList) (s : Side) (h0 : rtlOps.child m s q=0) :
    ∃ b o p, t=plug .nil (⟨s,q,b,o⟩::p) := by
  obtain ⟨l,b,u,p,rfl⟩ := exists_focus hq
  have hzn : Zip m r (.node l q b u) p := by simpa using zip_plug.mpr hz
  cases s with
  | left =>
    have hl : l = .nil := hzn.focus.2.1.root_eq_zero.mp (hzn.focus.1.near.symm.trans h0)
    exact ⟨b,u,p,by rw [hl]; rfl⟩
  | right =>
    have hu : u = .nil := hzn.focus.2.2.root_eq_zero.mp (hzn.focus.1.far.symm.trans h0)
    exact ⟨b,l,p,by rw [hu]; rfl⟩

variable {y : TreeState RtlMem dw' cw'} {x : TreeState MiMem dw cw}

/-- A legal insertion is at the end of a path. -/
theorem InStep.place (h : InStep x y t) {nodeOrParent : Addr}
    (hl : emptyPlace y nodeOrParent searchResult) :
    ∃ p, t=plug .nil p ∧ searchResult=placeResult p ∧
      (p≠[] → nodeOrParent=top y.balancedRoot p) := by
  cases searchResult with
  | emptyTree =>
    refine ⟨[],?_,rfl,by simp⟩
    have hn : y.nodes=[] := of_decide_eq_true hl
    have ht : t.toList=[] := perm_nil.mp (hn ▸ h.nodes).symm
    cases t with
    | nil => rfl
    | node l a b u => simp [toList] at ht
  | foundNode => simp [emptyPlace] at hl
  | insertAsLeft =>
    obtain ⟨hm,h0⟩ := of_decide_eq_true hl
    obtain ⟨b,o,p,rfl⟩ := exists_place h.zip (h.nodes.mem_iff.mp hm) .left h0
    exact ⟨_,rfl,rfl,fun _ => rfl⟩
  | insertAsRight =>
    obtain ⟨hm,h0⟩ := of_decide_eq_true hl
    obtain ⟨b,o,p,rfl⟩ := exists_place h.zip (h.nodes.mem_iff.mp hm) .right h0
    exact ⟨_,rfl,rfl,fun _ => rfl⟩

theorem InStep.insert
    (h : InStep x y t) {newNode nodeOrParent : Addr}
    (hl : (TreeStep.insert newNode nodeOrParent searchResult).legal y) :
    ∃ x' y' t', (TreeStep.insert newNode nodeOrParent searchResult).run miOps x=some x' ∧
      (TreeStep.insert newNode nodeOrParent searchResult).run rtlOps y=some y' ∧
      InStep x' y' t' := by
  obtain ⟨hn0,hna,hnr,hnn,hb,hplace⟩ := of_decide_eq_true hl
  obtain ⟨p,rfl,rfl,hnode⟩ := h.place hplace
  have hnt : newNode∉(plug .nil p).toList := fun hm => hnn (h.nodes.mem_iff.mpr hm)
  have hnl : newNode∉Path.labels p := by
    simpa [toList] using (toList_plug_perm .nil p).mem_iff.not.mp hnt
  have hz : Zip y.mem y.balancedRoot .nil p := by simpa using zip_plug.mpr h.zip
  have hfuel : p.length<y.nodes.length+1 := by
    have := length_path_le .nil p
    rw [h.nodes.length_eq]
    omega
  obtain ⟨m,hm,hzm⟩ := rtlpInsertAvlTreeNode_spec hz h.balanced hn0 hnr hnl hb hfuel
  obtain ⟨hbal,hl',-⟩ := growFix_spec (t := .node .nil newNode 0 .nil) h.balanced
    (by simp [BTree.Balanced]) (by simp [height]) (.inl (by simp [height]))
  have hlist : (growFix (.node .nil newNode 0 .nil) p).1.toList.Perm
      (newNode::(plug .nil p).toList) := by
    rw [hl',toList_plug,toList_plug]
    simp [toList]
  have hsim := rtlpInsertAvlTreeNode_sim h.sim hz h.balanced hn0 hnr hnl hb hna h.aligned_root
    h.aligned (y.nodes.length+1)
  simp only [TreeStep.run,rtlpInsertAvlTreeNode_place _ _ _ _ hnode,h.same_nodes]
  rw [hm] at hsim ⊢
  cases hmi : rtlpInsertAvlTreeNode miOps (y.nodes.length+1) x.toTable newNode
      (top y.balancedRoot p) (placeResult p) with
  | none =>
    rw [hmi] at hsim
    cases hsim
  | some T =>
    rw [hmi] at hsim
    cases hsim with
    | some hsim =>
      refine ⟨_,_,_,rfl,rfl,hsim,hzm,hbal,?_,h.aligned_root,?_,rfl⟩
      · intro a ha
        obtain rfl | ha := mem_cons.mp (hlist.mem_iff.mp ha)
        · exact hna
        · exact h.aligned a ha
      · exact (h.nodes.cons newNode).trans hlist.symm

theorem InStep.delete (h : InStep x y t) (hl : (TreeStep.delete node).legal y) :
    ∃ x' y' t', (TreeStep.delete node).run miOps x=some x' ∧
      (TreeStep.delete node).run rtlOps y=some y' ∧ InStep x' y' t' ∧
      ∀ u∈(TreeStep.delete node).uses miOps x, (u.1 u.2).u1 &&& 3#32=0 := by
  have hn : node∈t.toList := h.nodes.mem_iff.mp (of_decide_eq_true hl)
  have hfuel : t.toList.length<y.nodes.length+1 := by
    rw [h.nodes.length_eq]
    omega
  obtain ⟨m,t',shorter,hm,hzm,hbal,hlist,-⟩ :=
    rtlpDeleteAvlTreeNode_spec h.zip h.balanced hn hfuel
  obtain ⟨hsim,huses⟩ := rtlpDeleteAvlTreeNode_sim h.sim h.zip h.balanced hn h.aligned hfuel
  simp only [TreeStep.run,TreeStep.uses,h.same_nodes]
  rw [hm] at hsim ⊢
  cases hmi : rtlpDeleteAvlTreeNode miOps (y.nodes.length+1) x.toTable node with
  | none =>
    rw [hmi] at hsim
    cases hsim
  | some T =>
    rw [hmi] at hsim
    cases hsim with
    | some hsim =>
      refine ⟨_,_,_,rfl,rfl,⟨hsim,hzm,hbal,?_,h.aligned_root,?_,rfl⟩,huses⟩
      · intro a ha
        rw [hlist] at ha
        exact h.aligned a (mem_of_mem_erase ha)
      · rw [hlist]
        exact h.nodes.erase node

/-- The empty table, whose own node is its parent. -/
theorem inStep_empty {r : Addr} (h0 : r≠0) (hr : Aligned r) (hm : m r=⟨r,0,0⟩)
    (d : BitVec dw) (c : BitVec cw) (d' : BitVec dw') (c' : BitVec cw') :
    InStep ⟨⟨r,m,d,c⟩,[]⟩ ⟨⟨r,unpack m,d',c'⟩,[]⟩ .nil := by
  have hp : r &&& ~~~3#32=r := by simpa using mask_or_low (u := 0) hr
  refine ⟨⟨rfl,rfl⟩,⟨trivial,⟨?_,?_,?_⟩,by simp [toList,Path.labels],h0⟩,trivial,
    by simp [AlignedTree,toList],hr,List.Perm.refl _,rfl⟩
  · simpa [rtlOps,unpack,AddressNode.unpack,AddressNode.parent,hm] using hp
  · simp [rtlOps,unpack,AddressNode.unpack,BalancedLinks.child,hm]
  · simp [rtlOps,unpack,AddressNode.unpack,BalancedLinks.child,hm,root]

def runSteps {M : Type} (ops : NodeOps M) (x : TreeState M dw cw) :
    List TreeStep → Option (TreeState M dw cw)
  | [] => some x
  | s::steps => (s.run ops x).bind fun x' => runSteps ops x' steps

/-- Every evaluation of `RtlIsRightChild` in a run. -/
def runUses {M : Type} (ops : NodeOps M) (x : TreeState M dw cw) : List TreeStep → List (M × Addr)
  | [] => []
  | s::steps => s.uses ops x++((s.run ops x).elim [] fun x' => runUses ops x' steps)

def legalSteps (y : TreeState RtlMem dw cw) : List TreeStep → Bool
  | [] => true
  | s::steps => s.legal y && ((s.run rtlOps y).all fun y' => legalSteps y' steps)

theorem InStep.step (h : InStep x y t) {s : TreeStep} (hl : s.legal y) :
    ∃ x' y' t', s.run miOps x=some x' ∧ s.run rtlOps y=some y' ∧ InStep x' y' t' ∧
      ∀ u∈s.uses miOps x, (u.1 u.2).u1 &&& 3#32=0 := by
  cases s with
  | insert newNode nodeOrParent searchResult =>
    obtain ⟨x',y',t',hx,hy,h'⟩ := h.insert hl
    exact ⟨x',y',t',hx,hy,h',by simp [TreeStep.uses]⟩
  | delete node => exact h.delete hl

/-- Over every run of insertions and deletions the packed variant returns when the other one
does, its unpacked links are the same, and each unmasked read of a parent word in the deletion
loop meets balance bits 0. -/
theorem miAvl_simulates {x : TreeState MiMem dw cw} {y : TreeState RtlMem dw' cw'}
    {t : BTree Addr} (h : InStep x y t) {steps : List TreeStep} (hl : legalSteps y steps) :
    ∃ x' y', runSteps miOps x steps=some x' ∧ runSteps rtlOps y steps=some y' ∧
      x'.balancedRoot=y'.balancedRoot ∧ unpack x'.mem=y'.mem ∧
      ∀ u∈runUses miOps x steps, (u.1 u.2).u1 &&& 3#32=0 := by
  induction steps generalizing x y t with
  | nil => exact ⟨x,y,rfl,rfl,h.sim.root,h.sim.mem,by simp [runUses]⟩
  | cons s steps ih =>
    obtain ⟨hl1,hl2⟩ := Bool.and_eq_true_iff.mp hl
    obtain ⟨x₁,y₁,t₁,hx,hy,h₁,hu₁⟩ := h.step hl1
    rw [hy] at hl2
    obtain ⟨x',y',hx',hy',hr,hm,hu'⟩ := ih h₁ hl2
    refine ⟨x',y',by rw [runSteps,hx]; exact hx',by rw [runSteps,hy]; exact hy',hr,hm,?_⟩
    intro u hu
    rw [runUses,hx] at hu
    obtain hu | hu := mem_append.mp hu
    · exact hu₁ u hu
    · exact hu' u hu

end Simulation

/-- Three insertions in ascending order, then the deletion of the leaf on the left, which
climbs through the root. -/
theorem miAvl_simulates_ascending :
    let m : MiMem := update (fun _ => ⟨0,0,0⟩) 16 ⟨16,0,0⟩
    let x : TreeState MiMem 5 24 := ⟨⟨16,m,0,0⟩,[]⟩
    let y : TreeState RtlMem 32 32 := ⟨⟨16,unpack m,0,0⟩,[]⟩
    let steps : List TreeStep := [.insert 100 0 .emptyTree,.insert 200 100 .insertAsRight,
      .insert 300 200 .insertAsRight,.delete 100,.delete 300]
    legalSteps y steps ∧ ∃ x' y', runSteps miOps x steps=some x' ∧
      runSteps rtlOps y steps=some y' ∧ x'.balancedRoot=y'.balancedRoot ∧
      unpack x'.mem=y'.mem ∧ ∀ u∈runUses miOps x steps, (u.1 u.2).u1 &&& 3#32=0 := by
  refine ⟨by decide +kernel,?_⟩
  exact miAvl_simulates (inStep_empty (by decide) (by decide) (by simp) 0 0 0 0) (by decide +kernel)

end Odyssey.Avl
