import Odyssey.Rtl.AvlRep

/-! Insertion and deletion of a node, with the loops that climb to the table's own node.
The loops follow `growFix` and `shrinkFix` of the tree library. -/
namespace Odyssey.Avl
open AvlTree List BTree Path Side NodeOps
variable {dw cw : Nat} {p : Path Addr} {t : BTree Addr} {m : RtlMem} {x : BTree Addr} {r n q : Addr}
  {bd : Int} {l : BTree Addr} {d : Addr} {M : Type}

theorem weight_topSide (h : Zip m r t p) (ht : root t≠0) :
    (if rtlOps.isLeftChild m (root t) then (-1 : Int) else 1)=(topSide p).weight := by
  rw [h.isLeftChild ht]
  cases topSide p <;> simp [weight]

theorem weight_topSide' (h : Zip m r t p) (ht : root t≠0) :
    (if rtlOps.isRightChild m (root t) then (1 : Int) else -1)=(topSide p).weight := by
  rw [h.isRightChild ht]
  cases topSide p <;> simp [weight]

structure InsertHead (T : Table RtlMem dw cw) (t : BTree Addr) (p : Path Addr) : Prop where
  zip : Zip T.mem T.balancedRoot t p
  root_ne : root t≠0
  sentinel : rtlOps.balance T.mem T.balancedRoot = -1
  grown : ∃ u, (plug u p).Balanced ∧ t.height=u.height+1
  balanced : t.Balanced
  skewed : Skewed t

variable {T : Table RtlMem dw cw} {c : Crumb Addr}

theorem InsertHead.climb (h : InsertHead T t (c::p)) (h0 : c.balance=0) :
    InsertHead { T with mem := rtlOps.setBalance T.mem c.label c.side.weight }
      (join c.side c.label c.side.weight t c.sibling) p := by
  obtain ⟨u,hu,hh⟩ := h.grown
  have hrc : T.balancedRoot≠c.label := (zip_up.mp h.zip).ne_root (by simp)
  obtain ⟨hb,-,-,-,ho⟩ := (balanced_join ..).mp (balanced_of_plug hu)
  have heq : u.height=c.sibling.height := by
    cases hw : c.side <;> simp only [hw,weight] at hb <;> omega
  refine ⟨(zip_up.mp h.zip).setBalance _,by simpa using h.zip.path.1.ne,
    by simpa [hrc] using h.sentinel,⟨_,hu,by simp [heq,hh]⟩,?_,.inr (by simp)⟩
  rw [balanced_join]
  cases hw : c.side <;> simp only [hw,weight] at hb ⊢ <;>
    exact ⟨by omega,by omega,by omega,h.balanced,ho⟩

/-- At a node that was heavy on the side that grew, the rotation applies. -/
theorem InsertHead.overweight (h : InsertHead T t (c::p)) (hc : c.balance=c.side.weight) :
    Zip T.mem T.balancedRoot t (⟨c.side,c.label,c.side.weight,c.sibling⟩::p) ∧
      t.height=c.sibling.height+2 := by
  obtain ⟨u,hu,hh⟩ := h.grown
  obtain ⟨hb,-,-,-,-⟩ := (balanced_join ..).mp (balanced_of_plug hu)
  constructor
  · rw [← hc]
    exact h.zip
  · cases hw : c.side <;> simp only [hw,weight] at hb hc <;> omega

variable {fuel : Nat}

/-- The climb after an insertion. -/
theorem insertLoop_spec (h : InsertHead T t p) (hf : p.length<fuel) :
    ∃ m, insertLoop rtlOps fuel T (root t) (top T.balancedRoot p)=some { T with
        mem := m
        depthOfTree := if (growFix t p).2 then T.depthOfTree+1 else T.depthOfTree } ∧
      Zip m T.balancedRoot (growFix t p).1 [] := by
  induction p generalizing t T fuel with
  | nil =>
    obtain _ | fuel := fuel
    · simp at hf
    · refine ⟨rtlOps.setBalance T.mem T.balancedRoot 0,?_,h.zip.setBalance_root 0⟩
      rw [insertLoop,weight_topSide h.zip h.root_ne]
      simp [top,topSide,weight,h.sentinel,growFix]
  | cons c p ih =>
    obtain _ | fuel := fuel
    · simp at hf
    have hc : rtlOps.balance T.mem c.label=c.balance := h.zip.path.1.balance
    have hrc : T.balancedRoot≠c.label := (zip_up.mp h.zip).ne_root (by simp)
    rw [insertLoop,weight_topSide h.zip h.root_ne]
    simp only [top,topSide,hc]
    by_cases h0 : c.balance=0
    · obtain ⟨m,hm,hzm⟩ := ih (h.climb h0) (show _<fuel by simp at hf; omega)
      refine ⟨m,?_,by simpa only [growFix_climb h0] using hzm⟩
      rw [if_pos h0,growFix_climb h0,(h.climb h0).zip.parent_join]
      simpa using hm
    · rw [if_neg h0]
      by_cases h0' : c.balance≠c.side.weight
      · refine ⟨rtlOps.setBalance T.mem c.label 0,?_,?_⟩
        · rw [if_pos h0',growFix_level h0 h0']
          simp [hrc,h.sentinel]
        · rw [growFix_level h0 h0',← zip_plug,append_nil]
          exact (zip_up.mp h.zip).setBalance 0
      · obtain ⟨hz',htall⟩ := h.overweight (not_not.mp h0')
        refine ⟨_,by rw [if_neg h0',growFix_rotate (not_not.mp h0')]; rfl,?_⟩
        rw [growFix_rotate (not_not.mp h0'),← zip_plug,append_nil]
        exact (hz'.rebalance h.balanced htall).1

structure DeleteHead (T : Table RtlMem dw cw) (t : BTree Addr) (p : Path Addr) : Prop where
  zip : Zip T.mem T.balancedRoot t p
  sentinel : rtlOps.balance T.mem T.balancedRoot=0
  shrunk : ∃ u, (plug u p).Balanced ∧ u.height=t.height+1
  balanced : t.Balanced

theorem DeleteHead.climb (h : DeleteHead T t (c::p)) (h0 : c.balance=c.side.weight) :
    DeleteHead { T with mem := rtlOps.setBalance T.mem c.label 0 }
      (join c.side c.label 0 t c.sibling) p := by
  obtain ⟨u,hu,hh⟩ := h.shrunk
  have hrc : T.balancedRoot≠c.label := (zip_up.mp h.zip).ne_root (by simp)
  obtain ⟨hb,-,-,-,ho⟩ := (balanced_join ..).mp (balanced_of_plug hu)
  refine ⟨(zip_up.mp h.zip).setBalance 0,by simpa [hrc] using h.sentinel,⟨_,hu,?_⟩,?_⟩
  · simp only [height_join]
    cases hw : c.side <;> simp only [hw,weight] at hb h0 <;> omega
  · rw [balanced_join]
    cases hw : c.side <;> simp only [hw,weight] at hb h0 ⊢ <;>
      exact ⟨by omega,by omega,by omega,h.balanced,ho⟩

section
variable (h : DeleteHead T t (c::p)) (h0 : c.balance≠c.side.weight) (h0' : c.balance≠0)
include h h0 h0'

/-- At a node that was heavy on the other side, the rotation applies to that side. -/
theorem DeleteHead.overweight :
    Zip T.mem T.balancedRoot c.sibling
        (⟨c.side.flip,c.label,c.side.flip.weight,t⟩::p) ∧
      c.sibling.Balanced ∧ c.sibling.height=t.height+2 := by
  obtain ⟨u,hu,hh⟩ := h.shrunk
  obtain ⟨hb,h1,h2,-,ho⟩ := (balanced_join ..).mp (balanced_of_plug hu)
  have heq : c.balance=c.side.flip.weight := by
    cases hw : c.side <;> simp only [hw,Side.weight,Side.flip] at h0 ⊢ <;> omega
  refine ⟨zip_up.mpr ?_,ho,?_⟩
  · rw [← heq]
    simpa only [join_flip] using zip_up.mp h.zip
  · cases hw : c.side <;> simp only [hw,Side.weight,Side.flip] at hb heq <;> omega

theorem DeleteHead.rotate (hf : (AvlTree.rebalance c.side.flip c.label c.sibling t).2=false) :
    DeleteHead { T with mem := (rtlpRebalanceAvlTreeNode rtlOps T.mem c.label).1 }
      (AvlTree.rebalance c.side.flip c.label c.sibling t).1 p := by
  obtain ⟨hz',ho,htall⟩ := h.overweight h0 h0'
  obtain ⟨hzr,-,hrb,-⟩ := hz'.rebalance ho htall
  obtain ⟨hj,hg⟩ := rebalance_balanced c.side.flip c.label ho h.balanced htall
  obtain ⟨u,hu,hh⟩ := h.shrunk
  refine ⟨hzr,hrb.trans h.sentinel,⟨_,hu,?_⟩,hj⟩
  rw [hg,hf]
  simp
  omega

end

/-- One turn of the deletion loop: it finishes the repair, or moves the head one level up
and leaves from a node whose balance it has just made 0. -/
theorem DeleteHead.turn (h : DeleteHead T t p) :
    (∃ m, deleteTurn rtlOps T (top T.balancedRoot p) (topSide p).weight = .done { T with
        mem := m
        depthOfTree := if (shrinkFix t p).2 then T.depthOfTree-1 else T.depthOfTree } ∧
      Zip m T.balancedRoot (shrinkFix t p).1 []) ∨
    ∃ m t' c p', p=c::p' ∧
      deleteTurn rtlOps T (top T.balancedRoot p) (topSide p).weight = .climb m (root t') ∧
      DeleteHead { T with mem := m } t' p' ∧ root t'≠0 ∧ rtlOps.balance m (root t')=0 ∧
      shrinkFix t p=shrinkFix t' p' := by
  cases p with
  | nil =>
    refine .inl ⟨rtlOps.setBalance T.mem T.balancedRoot (-1),?_,h.zip.setBalance_root (-1)⟩
    simp [deleteTurn,top,topSide,weight,h.sentinel,shrinkFix]
  | cons c p =>
    have hc : rtlOps.balance T.mem c.label=c.balance := h.zip.path.1.balance
    have hrc : T.balancedRoot≠c.label := (zip_up.mp h.zip).ne_root (by simp)
    change (∃ m, deleteTurn rtlOps T c.label c.side.weight=_ ∧ _) ∨
      ∃ m t' d p', _ ∧ deleteTurn rtlOps T c.label c.side.weight=_ ∧ _
    unfold deleteTurn
    simp only [hc]
    by_cases h0 : c.balance=c.side.weight
    · refine .inr ⟨_,join c.side c.label 0 t c.sibling,c,p,rfl,?_,h.climb h0,
        by simpa using h.zip.path.1.ne,by simp,shrinkFix_climb h0 t p⟩
      rw [if_pos h0,root_join]
    · rw [if_neg h0]
      by_cases h0' : c.balance=0
      · refine .inl ⟨rtlOps.setBalance T.mem c.label (-c.side.weight),?_,?_⟩
        · rw [if_pos h0',shrinkFix_lean h0']
          simp [hrc,h.sentinel]
        · rw [shrinkFix_lean h0',← zip_plug,append_nil]
          exact (zip_up.mp h.zip).setBalance _
      · obtain ⟨hz',ho,htall⟩ := h.overweight h0 h0'
        obtain ⟨hzr,hflag,-,hroot⟩ := hz'.rebalance ho htall
        rw [if_neg h0',hflag,shrinkFix_rotate h0 h0']
        cases hf2 : (AvlTree.rebalance c.side.flip c.label c.sibling t).2 with
        | true =>
          refine .inl ⟨_,rfl,?_⟩
          rw [if_pos rfl,← zip_plug,append_nil]
          exact hzr
        | false =>
          obtain ⟨hpar,hb0,hne⟩ := hroot (hflag.trans hf2)
          exact .inr ⟨_,_,c,p,rfl,by simp [hpar],h.rotate h0 h0' hf2,hne,hb0,by simp⟩

theorem DeleteHead.toList_shrinkFix (h : DeleteHead T t p) :
    (shrinkFix t p).1.toList=(plug t p).toList := by
  obtain ⟨u,hu,hh⟩ := h.shrunk
  exact (shrinkFix_spec hu h.balanced hh).2.1

/-- The climb after a deletion. -/
theorem deleteLoop_spec (h : DeleteHead T t p) (hf : p.length<fuel) :
    ∃ m, deleteLoop rtlOps fuel T (top T.balancedRoot p) (topSide p).weight=some { T with
        mem := m
        depthOfTree := if (shrinkFix t p).2 then T.depthOfTree-1 else T.depthOfTree } ∧
      Zip m T.balancedRoot (shrinkFix t p).1 [] := by
  induction fuel generalizing t p T with
  | zero => simp at hf
  | succ fuel ih =>
    rw [deleteLoop]
    obtain ⟨m,hturn,hz⟩ | ⟨m,t',c,p',rfl,hturn,h',hne,-,hfix⟩ := h.turn
    · exact ⟨m,by rw [hturn],hz⟩
    · obtain ⟨m',hm',hz'⟩ := ih h' (by simp at hf; omega)
      refine ⟨m',?_,by rw [hfix]; exact hz'⟩
      simp only [hturn,hfix]
      rw [h'.zip.parent_root hne,weight_topSide' h'.zip hne]
      exact hm'

def attachLeaf (m : RtlMem) (s : Side) (parent node : Addr) : RtlMem :=
  rtlOps.insertAsChild (rtlOps.setChild (rtlOps.setChild m .right node 0) .left node 0) s parent
    node

theorem Zip.attach (hz : Zip m r .nil p)
    (hn0 : n≠0) (hnr : n≠r) (hnp : n∉labels p) (hb : rtlOps.balance m n=0) :
    Zip (attachLeaf m (topSide p) (top r p) n) r (.node .nil n 0 .nil) p := by
  have htop : n≠top r p := by
    intro he
    obtain ht | ht := mem_cons.mp hz.top_mem
    · exact hnr (he.trans ht)
    · exact hnp (he ▸ ht)
  have hne : ∀ z∈r::labels p, z≠n := by
    intro z hzm he
    subst he
    obtain he | he := mem_cons.mp hzm
    · exact hnr he
    · exact hnp he
  have hnd := hz.nodup
  simp only [toList,nil_append] at hnd
  refine ⟨⟨⟨hn0,?_,?_,?_,?_⟩,trivial,trivial⟩,?_,?_,hz.root_ne⟩
  · simp [attachLeaf,insertAsChild]
  · simp [attachLeaf,insertAsChild,htop,root]
  · simp [attachLeaf,insertAsChild,htop,root,Side.flip]
  · simpa [attachLeaf,insertAsChild] using hb
  · refine hz.path.redirect hnd ?_ ?_ ?_ ?_
    · intro z hzm
      simp [attachLeaf,insertAsChild,hne z hzm]
    · intro z hzm
      simp [attachLeaf,insertAsChild]
    · intro z hzm s hs
      simp [attachLeaf,insertAsChild,hne z hzm,hs]
    · simp [attachLeaf,insertAsChild,root]
  · simp only [toList,nil_append,cons_append]
    obtain ⟨h1,h2⟩ := nodup_cons.mp hnd
    exact nodup_cons.mpr ⟨by simp [h1,Ne.symm hnr],nodup_cons.mpr ⟨hnp,h2⟩⟩

theorem rtlpInsertAvlTreeNode_below {ops : NodeOps M} {T : Table M dw cw}
    {n q : Addr} {result : TableSearchResult} (h : result ≠ .emptyTree) (fuel : Nat) :
    rtlpInsertAvlTreeNode ops fuel T n q result =
      insertLoop ops fuel { T with
        mem := ops.setBalance (ops.insertAsChild (ops.setChild (ops.setChild T.mem .right n 0)
          .left n 0) (if result = .insertAsLeft then .left else .right) q n) T.balancedRoot (-1)
        numberGenericTableElements := T.numberGenericTableElements+1 } n q := by
  cases result with
  | emptyTree => exact absurd rfl h
  | _ => rfl

/-- The state in which the insertion loop starts. -/
theorem Zip.insertHead (hz : Zip T.mem T.balancedRoot .nil (c::p))
    (hbal : (plug .nil (c::p)).Balanced) (hn0 : n≠0) (hnr : n≠T.balancedRoot)
    (hnp : n∉labels (c::p)) (hb : rtlOps.balance T.mem n=0) :
    InsertHead { T with
      mem := rtlOps.setBalance (attachLeaf T.mem c.side c.label n) T.balancedRoot (-1)
      numberGenericTableElements := T.numberGenericTableElements+1 }
      (.node .nil n 0 .nil) (c::p) :=
  ⟨(hz.attach hn0 hnr hnp hb).setBalance_root (-1),hn0,by simp,
    ⟨_,hbal,by simp [height]⟩,by simp [BTree.Balanced],.inl (by simp [height])⟩

def placeResult : Path Addr → TableSearchResult
  | [] => .emptyTree
  | c::_ => if c.side = .left then .insertAsLeft else .insertAsRight

theorem placeResult_cons (c : Crumb Addr) (p : Path Addr) :
    placeResult (c::p) ≠ .emptyTree ∧
      (if placeResult (c::p) = .insertAsLeft then Side.left else .right)=c.side := by
  cases hc : c.side <;> simp [placeResult,hc]

/-- The parent is not read when the tree is empty. -/
theorem rtlpInsertAvlTreeNode_place (ops : NodeOps M) (fuel : Nat) (T : Table M dw cw)
    (n : Addr) {q r : Addr} (h : p≠[] → q=top r p) :
    rtlpInsertAvlTreeNode ops fuel T n q (placeResult p) =
      rtlpInsertAvlTreeNode ops fuel T n (top r p) (placeResult p) := by
  cases p with
  | nil => rfl
  | cons c p => rw [h (by simp)]

/-- `RtlpInsertAvlTreeNode` at an empty place of the tree: `fuel` may be any number above
the length of the path to it. -/
theorem rtlpInsertAvlTreeNode_spec (hz : Zip T.mem T.balancedRoot .nil p)
    (hbal : (plug .nil p).Balanced) (hn0 : n≠0) (hnr : n≠T.balancedRoot)
    (hnp : n∉labels p) (hb : rtlOps.balance T.mem n=0) (hf : p.length<fuel) :
    ∃ m, rtlpInsertAvlTreeNode rtlOps fuel T n (top T.balancedRoot p) (placeResult p)=some { T with
        mem := m
        depthOfTree := if p.isEmpty then 1
          else if (growFix (.node .nil n 0 .nil) p).2 then T.depthOfTree+1 else T.depthOfTree
        numberGenericTableElements := T.numberGenericTableElements+1 } ∧
      Zip m T.balancedRoot (growFix (.node .nil n 0 .nil) p).1 [] := by
  cases p with
  | nil =>
    refine ⟨_,?_,hz.attach hn0 hnr hnp hb⟩
    simp [placeResult,rtlpInsertAvlTreeNode,attachLeaf,topSide,top]
  | cons c p =>
    obtain ⟨hnot,hside⟩ := placeResult_cons c p
    obtain ⟨m,hm,hzm⟩ := insertLoop_spec (hz.insertHead hbal hn0 hnr hnp hb) hf
    refine ⟨m,?_,hzm⟩
    rw [rtlpInsertAvlTreeNode_below hnot,hside]
    exact hm

/-- Unhooking a node that has a subtree on side `s` at most. -/
theorem Zip.unlink {s : Side} (hz : Zip m r (join s d bd x .nil) p) :
    Zip (if root x≠0 then
        rtlOps.setParent (rtlOps.setChild m (topSide p) (top r p) (root x)) (root x) (top r p)
      else rtlOps.setChild m (topSide p) (top r p) (root x)) r x p := by
  obtain ⟨hd,hx,-⟩ := rep_join.mp hz.focus
  have hnd := (((toList_join_perm s d bd x .nil).append_right (labels p)).cons r).nodup_iff.mp
    hz.nodup
  simp only [toList,append_nil,cons_append,nodup_cons,mem_cons,mem_append,not_or] at hnd
  obtain ⟨⟨hrd,hrx,hrp⟩,⟨hdx,hdp⟩,hrest⟩ := hnd
  obtain ⟨hxn,hpn,hxd⟩ := nodup_append.mp hrest
  have hnx : ∀ z∈x.toList, z≠top r p := by
    intro z hzx he
    obtain ht | ht := mem_cons.mp hz.top_mem
    · exact hrx (by rw [← ht,← he]; exact hzx)
    · exact hxd z hzx _ ht he
  have hne : ∀ z∈r::labels p, root x≠0 → z≠root x := by
    intro z hzm h0 he
    subst he
    obtain he | he := mem_cons.mp hzm
    · exact hrx (he ▸ root_mem h0)
    · exact hxd _ (root_mem h0) _ he rfl
  have hnodup : (r::(x.toList++labels p)).Nodup :=
    nodup_cons.mpr ⟨by simp [hrx,hrp],hrest⟩
  have hpath := hz.path
  by_cases h0 : root x=0
  · rw [if_neg (not_not.mpr h0)]
    have hxnil := hx.root_eq_zero.mp h0
    subst hxnil
    refine ⟨trivial,hpath.redirect (nodup_cons.mpr ⟨hrp,hpn⟩) (by simp) (by simp) ?_
      (by simp),hnodup,hz.root_ne⟩
    intro z hzm u hu
    simp [hu]
  · rw [if_pos h0]
    refine ⟨rep_reparent hx hxn (by simp) ?_ (by simp) ?_,hpath.redirect
      (nodup_cons.mpr ⟨hrp,hpn⟩) ?_ (by simp) ?_ (by simp),hnodup,hz.root_ne⟩
    · intro u _
      simp [hnx _ (root_mem h0)]
    · intro z hzx hzr
      exact ⟨by simp [hzr],fun u => by simp [hnx z hzx],by simp⟩
    · intro z hzm
      simp [hne z hzm h0]
    · intro z hzm u hu
      simp [hu]

/-- The walk to the last node on side `s` ends at a node without a subtree there. -/
theorem lastNode_spec (h : Rep m q t) (ht : root t≠0) (s : Side) (hf : t.toList.length<fuel) :
    ∃ d bd x p, lastNode rtlOps m s fuel (root t)=some d ∧
      t=plug (join s d bd .nil x) p ∧ ∀ c∈p, c.side=s := by
  induction t generalizing q fuel with
  | nil => exact absurd rfl ht
  | node l a b r ihl ihr =>
    obtain _ | fuel := fuel
    · simp at hf
    simp only [toList,length_append,length_cons] at hf
    -- follow the subtree on side `s`, which is `l` or `r`
    obtain ⟨x,y,hxy,hx,ih,hlen⟩ : ∃ x y, BTree.node l a b r=join s a b x y ∧ Rep m a x ∧
        (root x≠0 → ∃ d bd z p, lastNode rtlOps m s fuel (root x)=some d ∧
          x=plug (join s d bd .nil z) p ∧ ∀ c∈p, c.side=s) ∧ True := by
      cases s with
      | left => exact ⟨l,r,rfl,h.2.1,fun h0 => ihl h.2.1 h0 (by omega),trivial⟩
      | right => exact ⟨r,l,rfl,h.2.2,fun h0 => ihr h.2.2 h0 (by omega),trivial⟩
    rw [hxy] at h ⊢
    have hchild : rtlOps.child m s a=root x := (rep_join.mp h).1.near
    rw [root_join,lastNode,hchild]
    by_cases h0 : root x=0
    · have hxnil := hx.root_eq_zero.mp h0
      subst hxnil
      exact ⟨a,b,y,[],by simp [root],rfl,by simp⟩
    · obtain ⟨d,bd,z,p,hd,hp,hc⟩ := ih h0
      refine ⟨d,bd,z,p++[⟨s,a,b,y⟩],by rw [if_pos h0,hd],?_,?_⟩
      · rw [plug_append,← hp]
        rfl
      · simpa [or_imp,forall_and] using hc

theorem before_eq_nil (h : ∀ c∈p, c.side = .left) : before p=[] := by
  induction p with
  | nil => rfl
  | cons c p ih =>
    rw [before,ih fun d hd => h d (by simp [hd]),h c (by simp)]
    rfl

theorem after_eq_nil (h : ∀ c∈p, c.side = .right) : after p=[] := by
  induction p with
  | nil => rfl
  | cons c p ih =>
    rw [Path.after,ih fun d hd => h d (by simp [hd]),h c (by simp)]
    rfl

theorem lastNode_left (h : Rep m q t) (ht : root t≠0) (hf : t.toList.length<fuel) :
    lastNode rtlOps m .left fuel (root t)=some (t.toList.headD 0) := by
  obtain ⟨d,bd,x,p,hd,rfl,hp⟩ := lastNode_spec h ht .left hf
  rw [hd,toList_plug,before_eq_nil hp,join]
  simp [toList]

theorem lastNode_right (h : Rep m q t) (ht : root t≠0) (hf : t.toList.length<fuel) :
    lastNode rtlOps m .right fuel (root t)=some (t.toList.getLastD 0) := by
  obtain ⟨d,bd,x,p,hd,rfl,hp⟩ := lastNode_spec h ht .right hf
  rw [hd,toList_plug,after_eq_nil hp,join]
  simp [toList,← append_assoc]

/-- The place of a node in the tree, from its place in the order. -/
theorem Zip.at {A B : List Addr} (hz : Zip m r t []) (ht : t.toList=A++n::B) :
    ∃ l b u p, t=plug (.node l n b u) p ∧ Zip m r (.node l n b u) p ∧
      A=before p++l.toList ∧ B=u.toList++after p := by
  obtain ⟨l,b,u,p,rfl⟩ := exists_focus (t := t) (a := n) (by simp [ht])
  have hsplit : A++n::B=(before p++l.toList)++n::(u.toList++after p) := by
    rw [← ht,toList_plug]
    simp [toList]
  have hnd : (A++n::B).Nodup := by
    rw [← ht]
    simpa [labels] using (nodup_cons.mp hz.nodup).2
  exact ⟨l,b,u,p,rfl,by simpa using zip_plug.mpr hz,nodup_split_unique hsplit hnd⟩

/-- The links after `replaceNode`, in terms of the links before it. -/
theorem replace_links {d n q u v : Addr} {sq : Side} (hq : rtlOps.parent m n=q)
    (hu : rtlOps.child m .left n=u) (hv : rtlOps.child m .right n=v)
    (hs : (if rtlOps.isLeftChild m n then Side.left else .right)=sq)
    (hqd : q≠d) (hnd : n≠d) (z : Addr) :
    rtlOps.parent (replaceNode rtlOps m d n) z =
        (if (z=v ∧ v≠0) ∨ (z=u ∧ u≠0) then d else if z=d then q
          else rtlOps.parent m z) ∧
      (∀ s, rtlOps.child (replaceNode rtlOps m d n) s z =
        if z=q ∧ s=sq then d else rtlOps.child m s (if z=d then n else z)) ∧
      rtlOps.balance (replaceNode rtlOps m d n) z =
        rtlOps.balance m (if z=d then n else z) := by
  have hs' : (if rtlOps.isLeftChild (rtlOps.copyNodeData m d n) n then Side.left else .right) =
      sq := by
    rw [← hs]
    simp [isLeftChild,hnd,hq,hqd]
  by_cases h0 : u=0#32 <;> by_cases h1 : v=0#32 <;>
    simp [replaceNode,hs',hq,hu,hv,hqd.symm,h0,h1]
  all_goals
    by_cases hzu : z=u <;> by_cases hzv : z=v <;> by_cases hzd : z=d <;> simp_all

/-- `d`, which is not in the tree, takes the place of `n`. -/
theorem Zip.replaceNode {r d n : Addr} {b : Int}
    (hz : Zip m r (.node l n b t) p) (hd0 : d≠0) (hdr : d≠r)
    (hd : d∉(plug (.node l n b t) p).toList) :
    Zip (replaceNode rtlOps m d n) r (.node l d b t) p := by
  obtain ⟨hn,hl,ht⟩ := hz.focus
  have hdm := (toList_plug_perm (.node l n b t) p).mem_iff.not.mp hd
  simp only [toList,append_assoc,cons_append,mem_append,mem_cons,not_or] at hdm
  obtain ⟨hdl,hdn,hdt,hdp⟩ := hdm
  have hnd := hz.nodup
  simp only [toList,append_assoc,cons_append,nodup_cons,mem_append,mem_cons,not_or] at hnd
  obtain ⟨⟨hrl,hrn,hrt,hrp⟩,hrest⟩ := hnd
  obtain ⟨hln,hrest',hld⟩ := nodup_append.mp hrest
  obtain ⟨hnm,htp⟩ := nodup_cons.mp hrest'
  obtain ⟨htn,hpn,htd⟩ := nodup_append.mp htp
  have htop : top r p≠d := by
    intro he
    obtain ht | ht := mem_cons.mp hz.top_mem
    · exact hdr (he.symm.trans ht)
    · exact hdp (he ▸ ht)
  have hrl' := replace_links hn.parent hn.near hn.far
    (topSide_join hz (by simpa [root] using hn.ne) rfl) htop (Ne.symm hdn)
  have hne0 : ∀ {w : BTree Addr} {z : Addr}, z∉w.toList → ¬(z=root w ∧ root w≠0) := by
    rintro w z hzw ⟨rfl,h0⟩
    exact hzw (root_mem h0)
  have htree : ∀ z, (z∈l.toList ∨ z∈t.toList) → z≠d ∧ z≠top r p := by
    intro z hzm
    constructor
    · rintro rfl
      obtain h | h := hzm
      · exact hdl h
      · exact hdt h
    · intro he
      obtain ht' | ht' := mem_cons.mp hz.top_mem
      · obtain h | h := hzm
        · exact hrl (by rw [← ht',← he]; exact h)
        · exact hrt (by rw [← ht',← he]; exact h)
      · obtain h | h := hzm
        · exact hld z h _ (by simp [ht']) he
        · exact htd z h _ ht' he
  refine ⟨⟨⟨hd0,?_,?_,?_,?_⟩,?_,?_⟩,?_,?_,hz.root_ne⟩
  · rw [(hrl' d).1,if_neg (not_or.mpr ⟨hne0 hdt,hne0 hdl⟩),if_pos rfl]
  · simpa [(hrl' d).2.1,htop.symm] using hn.near
  · simpa [(hrl' d).2.1,htop.symm] using hn.far
  · simpa [(hrl' d).2.2] using hn.balance
  · refine rep_reparent hl hln ?_ ?_ ?_ ?_
    · intro h0
      rw [(hrl' _).1,if_pos (.inr ⟨rfl,h0⟩)]
    · intro s h0
      obtain ⟨h1,h2⟩ := htree _ (.inl (root_mem h0))
      simp [(hrl' _).2.1,h1,h2]
    · intro h0
      simp [(hrl' _).2.2,(htree _ (.inl (root_mem h0))).1]
    · intro z hzl hzr
      obtain ⟨h1,h2⟩ := htree z (.inl hzl)
      refine ⟨?_,fun s => by simp [(hrl' _).2.1,h1,h2],by simp [(hrl' _).2.2,h1]⟩
      rw [(hrl' z).1,if_neg (not_or.mpr ⟨hne0 fun h => hld z hzl z (by simp [h]) rfl,
        fun h => hzr h.1⟩),if_neg h1]
  · refine rep_reparent ht htn ?_ ?_ ?_ ?_
    · intro h0
      rw [(hrl' _).1,if_pos (.inl ⟨rfl,h0⟩)]
    · intro s h0
      obtain ⟨h1,h2⟩ := htree _ (.inr (root_mem h0))
      simp [(hrl' _).2.1,h1,h2]
    · intro h0
      simp [(hrl' _).2.2,(htree _ (.inr (root_mem h0))).1]
    · intro z hzt hzr
      obtain ⟨h1,h2⟩ := htree z (.inr hzt)
      refine ⟨?_,fun s => by simp [(hrl' _).2.1,h1,h2],by simp [(hrl' _).2.2,h1]⟩
      rw [(hrl' z).1,if_neg (not_or.mpr ⟨fun h => hzr h.1,
        hne0 fun h => hld z h z (by simp [hzt]) rfl⟩),if_neg h1]
  · have hlab : ∀ z∈r::labels p, z≠d ∧ z∉l.toList ∧ z∉t.toList := by
      intro z hzm
      obtain rfl | h := mem_cons.mp hzm
      · exact ⟨Ne.symm hdr,hrl,hrt⟩
      · exact ⟨fun e => hdp (e ▸ h),fun e => hld z e z (by simp [h]) rfl,
          fun e => htd z e z h rfl⟩
    refine RepPath.redirect hz.path (nodup_cons.mpr ⟨hrp,hpn⟩) ?_ ?_ ?_ ?_
    · intro z hzm
      obtain ⟨h1,h2,h3⟩ := hlab z hzm
      rw [(hrl' z).1,if_neg (not_or.mpr ⟨hne0 h3,hne0 h2⟩),if_neg h1]
    · intro z hzm
      rw [(hrl' z).2.2,if_neg (hlab z (by simp [hzm])).1]
    · intro z hzm s hs
      rw [(hrl' z).2.1,if_neg hs,if_neg (hlab z hzm).1]
    · rw [(hrl' _).2.1,if_pos ⟨rfl,rfl⟩]
      rfl
  · simp only [toList,append_assoc,cons_append,nodup_cons,mem_append,mem_cons,not_or]
    refine ⟨⟨hrl,Ne.symm hdr,hrt,hrp⟩,nodup_append.mpr ⟨hln,nodup_cons.mpr
      ⟨by simp [hdt,hdp],htp⟩,?_⟩⟩
    intro z hzl w hw
    obtain rfl | hw := mem_cons.mp hw
    · rintro rfl
      exact hdl hzl
    · exact hld z hzl w (mem_cons_of_mem n hw)

/-- A node with a subtree missing, seen from the side the deletion unhooks it from. -/
theorem exists_join_nil {q d : Addr} {b : Int}
    (h : Rep m q (.node l d b t)) (hlt : l = .nil ∨ t = .nil) :
    ∃ x, BTree.node l d b t=join (keptSide rtlOps m d) d b x .nil ∧
      x.toList=l.toList++t.toList := by
  rw [keptSide,h.1.near]
  cases l with
  | nil => exact ⟨t,by simp [root,join],rfl⟩
  | node l' a b' r' =>
    have ht : t = .nil := hlt.resolve_left (by simp)
    subst ht
    have ha : root (.node l' a b' r')≠0 := h.2.1.1.ne
    exact ⟨.node l' a b' r',by rw [if_pos ha]; rfl,by simp [toList]⟩

/-- The node picked for unhooking is `n` or its neighbour in order. -/
theorem pickDeleteNode_spec (hz : Zip m r t []) (hn : n∈t.toList) (hf : t.toList.length<fuel) :
    ∃ d bd x p, pickDeleteNode rtlOps fuel m n=some d ∧
      t=plug (join (keptSide rtlOps m d) d bd x .nil) p ∧
      (d=n ∧ (plug x p).toList=t.toList.erase n ∨
        d≠n ∧ ∃ A B, (plug x p).toList=A++n::B ∧ t.toList.erase n=A++d::B) := by
  obtain ⟨l,b,u,p,rfl⟩ := exists_focus hn
  have hzf : Zip m r (.node l n b u) p := by simpa using zip_plug.mpr hz
  have hnd : (plug (.node l n b u) p).toList.Nodup := by
    have := hz.nodup
    simp only [labels,append_nil] at this
    exact (nodup_cons.mp this).2
  rw [toList_plug,toList] at hnd hf
  simp only [append_assoc,cons_append,length_append,length_cons] at hnd hf
  have herase : ∀ A B : List Addr, (A++n::B).Nodup → (A++n::B).erase n=A++B := by
    intro A B h
    have hA : n∉A := fun hm => (nodup_append.mp h).2.2 n hm n (by simp) rfl
    rw [erase_append_right _ hA,erase_cons_head]
  rw [toList_plug,toList]
  have hl : rtlOps.child m .left n=root l := hzf.focus.1.near
  have hu : rtlOps.child m .right n=root u := hzf.focus.1.far
  have hl0 := hzf.focus.2.1.root_eq_zero
  have hu0 := hzf.focus.2.2.root_eq_zero
  unfold pickDeleteNode
  rw [hl,hu]
  by_cases h0 : root l=0 ∨ root u=0
  · rw [if_pos h0]
    obtain ⟨x,hx,hxl⟩ := exists_join_nil hzf.focus (h0.imp hl0.mp hu0.mp)
    refine ⟨n,b,x,p,rfl,by rw [← hx],.inl ⟨rfl,?_⟩⟩
    have := herase (before p++l.toList) (u.toList++after p) (by simpa using hnd)
    simpa [toList_plug,hxl] using this.symm
  · rw [if_neg h0]
    obtain ⟨hl0,hu0⟩ := not_or.mp h0
    -- the successor when the right side is at least as high, else the predecessor
    by_cases hb : rtlOps.balance m n ≥ 0
    · rw [if_pos hb]
      obtain ⟨d,bd,x,q,hd,rfl,hq⟩ := lastNode_spec hzf.focus.2.2
        hu0 .left (show _<fuel by omega)
      have hzd : Zip m r (.node .nil d bd x) (q++⟨.right,n,b,l⟩::p) :=
        zip_plug.mpr (zip_up.mpr hzf)
      obtain ⟨x',hx',hxl⟩ := exists_join_nil hzd.focus (.inl rfl)
      rw [toList_plug,before_eq_nil hq] at hnd ⊢
      simp only [join,toList,nil_append,append_assoc,cons_append]
        at hnd hxl ⊢
      refine ⟨d,bd,x',q++⟨.right,n,b,l⟩::p,hd,?_,.inr ⟨?_,
        before p++l.toList,x.toList++(after q++after p),?_,?_⟩⟩
      · exact ((plug_append _ q _).symm).trans (congrArg (plug · (q++⟨.right,n,b,l⟩::p)) hx')
      · rintro rfl
        simp [nodup_append] at hnd
      · rw [plug_append,plug,toList_plug,join,toList,toList_plug,before_eq_nil hq,hxl]
        simp
      · simpa using herase (before p++l.toList) _ (by simpa using hnd)
    · rw [if_neg hb]
      obtain ⟨d,bd,x,q,hd,rfl,hq⟩ := lastNode_spec hzf.focus.2.1
        hl0 .right (show _<fuel by omega)
      have hzd : Zip m r (.node x d bd .nil) (q++⟨.left,n,b,u⟩::p) :=
        zip_plug.mpr (zip_up.mpr hzf)
      obtain ⟨x',hx',hxl⟩ := exists_join_nil hzd.focus (.inr rfl)
      rw [toList_plug,after_eq_nil hq] at hnd ⊢
      simp only [join,toList,append_nil,append_assoc,cons_append,nil_append] at hnd hxl ⊢
      refine ⟨d,bd,x',q++⟨.left,n,b,u⟩::p,hd,?_,.inr ⟨?_,
        before p++(before q++x.toList),u.toList++after p,?_,?_⟩⟩
      · exact ((plug_append _ q _).symm).trans (congrArg (plug · (q++⟨.left,n,b,u⟩::p)) hx')
      · rintro rfl
        simp [nodup_append] at hnd
      · rw [plug_append,plug,toList_plug,join,toList,toList_plug,after_eq_nil hq,hxl]
        simp
      · simpa using herase (before p++(before q++(x.toList++[d]))) _
          (by simpa using hnd)

theorem Zip.unhookNode
    (hz : Zip m r (join (keptSide rtlOps m d) d bd x .nil) p) :
    Zip (unhookNode rtlOps m d) r x p := by
  have hd := (rep_join.mp hz.focus).1
  have htop : d≠top r p := hz.ne_top (by simp)
  have hs : (if rtlOps.isLeftChild m d then Side.left else .right)=topSide p :=
    topSide_join hz (by simpa using hd.ne) (root_join ..)
  have hz' := hz.unlink
  unfold Odyssey.Avl.unhookNode
  simpa [hs,hd.parent,htop,hd.near] using hz'

/-- The state in which the deletion loop starts. -/
theorem Zip.deleteHead {d : Addr}
    (hz : Zip T.mem T.balancedRoot (join (keptSide rtlOps T.mem d) d bd x .nil) p)
    (hb : (plug (join (keptSide rtlOps T.mem d) d bd x .nil) p).Balanced) :
    DeleteHead { T with
      mem := rtlOps.setBalance (Odyssey.Avl.unhookNode rtlOps T.mem d) T.balancedRoot 0 } x p :=
  ⟨hz.unhookNode.setBalance_root 0,by simp,⟨_,hb,by simp [height]⟩,
    ((balanced_join ..).mp (balanced_of_plug hb)).2.2.2.1⟩

/-- `RtlpDeleteAvlTreeNode` on a node of the tree. -/
theorem rtlpDeleteAvlTreeNode_spec (hz : Zip T.mem T.balancedRoot t [])
    (hb : t.Balanced) (hn : n∈t.toList) (hf : t.toList.length<fuel) :
    ∃ m t', ∃ shorter : Bool, rtlpDeleteAvlTreeNode rtlOps fuel T n=some { T with
        mem := m
        depthOfTree := if shorter then T.depthOfTree-1 else T.depthOfTree } ∧
      Zip m T.balancedRoot t' [] ∧ t'.Balanced ∧ t'.toList=t.toList.erase n ∧
      t.height=t'.height+(if shorter then 1 else 0) := by
  obtain ⟨d,bd,x,p,hpick,ht,hcase⟩ := pickDeleteNode_spec hz hn hf
  have hzd : Zip T.mem T.balancedRoot (join (keptSide rtlOps T.mem d) d bd x .nil) p := by
    rw [ht,← zip_plug,append_nil] at hz
    exact hz
  have hd := (rep_join.mp hzd.focus).1
  have hbal : (if rtlOps.isLeftChild T.mem d then (-1 : Int) else 1)=(topSide p).weight := by
    simpa using weight_topSide hzd (by simpa using hd.ne)
  have hlen : p.length<fuel :=
    lt_of_le_of_lt (length_path_le _ p) (ht ▸ hf)
  obtain ⟨m,hm,hzm⟩ := deleteLoop_spec (hzd.deleteHead (ht ▸ hb)) hlen
  obtain ⟨hb',hl',hh'⟩ := shrinkFix_spec (p := p) (ht ▸ hb)
    ((balanced_join ..).mp (balanced_of_plug (ht ▸ hb))).2.2.2.1 (by simp [height])
  rw [← ht] at hh'
  have hrun : rtlpDeleteAvlTreeNode rtlOps fuel T n=some { T with
      mem := if n=d then m else Odyssey.Avl.replaceNode rtlOps m d n
      depthOfTree := if (shrinkFix x p).2 then T.depthOfTree-1 else T.depthOfTree } := by
    simp only [rtlpDeleteAvlTreeNode,hpick,hd.parent,hbal,Option.bind_eq_bind,Option.bind_some]
    rw [hm]
    by_cases hnd : n=d <;> simp [hnd]
  obtain ⟨rfl,hl⟩ | ⟨hdn,A,B,hA,hB⟩ := hcase
  · exact ⟨_,_,_,hrun,by simpa using hzm,hb',hl'.trans hl,hh'⟩
  · rw [if_neg (Ne.symm hdn)] at hrun
    obtain ⟨l,b,u,q,hq⟩ := exists_focus (t := (shrinkFix x p).1) (a := n) (by simp [hl',hA])
    rw [hq] at hzm hb' hl' hh'
    have hperm : t.toList.Perm (d::(plug x p).toList) := by
      rw [ht]
      refine (toList_plug_perm _ p).trans (((toList_join_perm ..).append_right _).trans ?_)
      simpa [toList] using (toList_plug_perm x p).symm
    have hnd : (d::(plug x p).toList).Nodup := by
      refine hperm.nodup_iff.mp ?_
      simpa [labels] using (nodup_cons.mp hz.nodup).2
    obtain ⟨hdnot,hnd'⟩ := nodup_cons.mp hnd
    have hzn : Zip m T.balancedRoot (.node l n b u) q := by
      rw [← zip_plug,append_nil] at hzm
      exact hzm
    have hzr := hzn.replaceNode hd.ne (hzd.ne_root (by simp)).symm (hl' ▸ hdnot)
    have hbn : (BTree.node l n b u).Balanced := balanced_of_plug hb'
    refine ⟨_,plug (.node l d b u) q,_,hrun,?_,balanced_plug_congr (t := .node l n b u) rfl
      (u := .node l d b u) hbn hb',?_,?_⟩
    · rw [← zip_plug,append_nil]
      exact hzr
    · -- both lists split at `n`, which occurs once
      have hsplit : (before q++l.toList)++n::(u.toList++after q)=A++n::B := by
        rw [← hA,← hl',toList_plug]
        simp [toList]
      obtain ⟨h1,h2⟩ := nodup_split_unique hsplit.symm (hA ▸ hnd')
      rw [toList_plug,hB,h1,h2]
      simp [toList]
    · rw [hh',height_plug_congr (t := .node l n b u) (u := .node l d b u) rfl]

end Odyssey.Avl
