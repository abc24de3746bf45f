import Odyssey.Rtl.AvlSupport

/-! The accessors of `rtlavl.h`, and how a memory of balanced links holds a tree:
`Zip` is the tree below `BalancedRoot.RightChild` opened at a subtree. Every routine
of the package is described by what it does to that picture. -/
namespace Odyssey.Avl
open AvlTree Function List Path

structure BalancedLinks where
  parent : Addr
  leftChild : Addr
  rightChild : Addr
  balance : Int
  deriving DecidableEq, Repr

def BalancedLinks.child (l : BalancedLinks) : Side → Addr
  | .left => l.leftChild
  | .right => l.rightChild

def BalancedLinks.setChild (l : BalancedLinks) (s : Side) (v : Addr) : BalancedLinks :=
  match s with
  | .left => { l with leftChild := v }
  | .right => { l with rightChild := v }

abbrev RtlMem := Addr → BalancedLinks

def rtlOps : NodeOps RtlMem where
  parent m a := (m a).parent
  child m s a := (m a).child s
  balance m a := (m a).balance
  setParent m a v := update m a { m a with parent := v }
  setChild m s a v := update m a ((m a).setChild s v)
  setBalance m a v := update m a { m a with balance := v }
  copyNodeData m a b := update m a (m b)
  isRightChild m a := (m (m a).parent).rightChild=a

section Accessors
variable (m : RtlMem) (s s' : Side) (a b x v : Addr) (i : Int)

@[simp] theorem parent_setParent : rtlOps.parent (rtlOps.setParent m a v) x =
    if x=a then v else rtlOps.parent m x := by
  by_cases h : x=a <;> simp [rtlOps,h]

@[simp] theorem child_setParent : rtlOps.child (rtlOps.setParent m a v) s x=rtlOps.child m s x := by
  by_cases h : x=a <;> cases s <;> simp [rtlOps,h,BalancedLinks.child]

@[simp] theorem balance_setParent :
    rtlOps.balance (rtlOps.setParent m a v) x=rtlOps.balance m x := by
  by_cases h : x=a <;> simp [rtlOps,h]

@[simp] theorem parent_setChild : rtlOps.parent (rtlOps.setChild m s a v) x=rtlOps.parent m x := by
  by_cases h : x=a <;> cases s <;>
    simp [rtlOps,h,BalancedLinks.setChild]

@[simp] theorem child_setChild : rtlOps.child (rtlOps.setChild m s a v) s' x =
    if x=a ∧ s'=s then v else rtlOps.child m s' x := by
  by_cases h : x=a <;> cases s <;> cases s' <;>
    simp [rtlOps,h,BalancedLinks.setChild,BalancedLinks.child]

@[simp] theorem balance_setChild :
    rtlOps.balance (rtlOps.setChild m s a v) x=rtlOps.balance m x := by
  by_cases h : x=a <;> cases s <;>
    simp [rtlOps,h,BalancedLinks.setChild]

@[simp] theorem parent_setBalance :
    rtlOps.parent (rtlOps.setBalance m a i) x=rtlOps.parent m x := by
  by_cases h : x=a <;> simp [rtlOps,h]

@[simp] theorem child_setBalance :
    rtlOps.child (rtlOps.setBalance m a i) s x=rtlOps.child m s x := by
  by_cases h : x=a <;> cases s <;> simp [rtlOps,h,BalancedLinks.child]

@[simp] theorem balance_setBalance : rtlOps.balance (rtlOps.setBalance m a i) x =
    if x=a then i else rtlOps.balance m x := by
  by_cases h : x=a <;> simp [rtlOps,h]

@[simp] theorem parent_copyNodeData : rtlOps.parent (rtlOps.copyNodeData m a b) x =
    rtlOps.parent m (if x=a then b else x) := by
  by_cases h : x=a <;> simp [rtlOps,h]

@[simp] theorem child_copyNodeData : rtlOps.child (rtlOps.copyNodeData m a b) s x =
    rtlOps.child m s (if x=a then b else x) := by
  by_cases h : x=a <;> simp [rtlOps,h]

@[simp] theorem balance_copyNodeData : rtlOps.balance (rtlOps.copyNodeData m a b) x =
    rtlOps.balance m (if x=a then b else x) := by
  by_cases h : x=a <;> simp [rtlOps,h]

@[simp] theorem isRightChild_eq : rtlOps.isRightChild m a =
    decide (rtlOps.child m .right (rtlOps.parent m a)=a) := rfl

end Accessors

def root : BTree Addr → Addr
  | .nil => 0
  | .node _ a _ _ => a

@[simp] theorem root_join (s : Side) (a : Addr) (b : Int) (x y : BTree Addr) :
    root (join s a b x y)=a := by
  cases s <;> rfl

structure NodeAt (m : RtlMem) (s : Side) (a p u v : Addr) (b : Int) : Prop where
  ne : a≠0
  parent : rtlOps.parent m a=p
  near : rtlOps.child m s a=u
  far : rtlOps.child m s.flip a=v
  balance : rtlOps.balance m a=b

def Rep (m : RtlMem) (p : Addr) : BTree Addr → Prop
  | .nil => True
  | .node l a b r => NodeAt m .left a p (root l) (root r) b ∧ Rep m a l ∧ Rep m a r

variable {m : RtlMem} {s : Side} {b : Int} {a p u v r hole z : Addr}

theorem nodeAt_flip : NodeAt m s.flip a p u v b ↔ NodeAt m s a p v u b := by
  constructor
  · intro h
    exact ⟨h.ne,h.parent,by simpa using h.far,h.near,h.balance⟩
  · intro h
    exact ⟨h.ne,h.parent,h.far,by simpa using h.near,h.balance⟩

variable {x y : BTree Addr}

theorem rep_join :
    Rep m p (join s a b x y) ↔
      NodeAt m s a p (root x) (root y) b ∧ Rep m a x ∧ Rep m a y := by
  cases s with
  | left => rfl
  | right =>
    change NodeAt m .left a p (root y) (root x) b ∧ Rep m a y ∧ Rep m a x ↔ _
    rw [← nodeAt_flip]
    tauto

variable {t : BTree Addr}

theorem root_mem (h : root t≠0) : root t∈t.toList := by
  cases t with
  | nil => exact absurd rfl h
  | node l a b r => simp [root,BTree.toList]

theorem rep_ne_zero (h : Rep m p t) : ∀ a∈t.toList, a≠0 := by
  induction t generalizing p with
  | nil => simp [BTree.toList]
  | node l x b r ihl ihr =>
    intro a ha
    simp only [BTree.toList,mem_append,mem_cons] at ha
    obtain ha | rfl | ha := ha
    · exact ihl h.2.1 a ha
    · exact h.1.ne
    · exact ihr h.2.2 a ha

theorem Rep.root_eq_zero (h : Rep m p t) : root t=0 ↔ t = .nil := by
  cases t with
  | nil => simp [root]
  | node l a b r => simpa [root] using h.1.ne

structure SameAt (m m' : RtlMem) (a : Addr) : Prop where
  parent : rtlOps.parent m' a=rtlOps.parent m a
  child : ∀ s, rtlOps.child m' s a=rtlOps.child m s a
  balance : rtlOps.balance m' a=rtlOps.balance m a

variable {m' : RtlMem}

theorem NodeAt.congr (h : NodeAt m s a p u v b) (hs : SameAt m m' a) : NodeAt m' s a p u v b :=
  ⟨h.ne,hs.parent.trans h.parent,(hs.child s).trans h.near,(hs.child s.flip).trans h.far,
    hs.balance.trans h.balance⟩

theorem rep_congr (h : Rep m p t) (hs : ∀ a∈t.toList, SameAt m m' a) : Rep m' p t := by
  induction t generalizing p with
  | nil => trivial
  | node l x b r ihl ihr =>
    simp only [BTree.toList,mem_append,mem_cons] at hs
    exact ⟨h.1.congr (hs x (.inr (.inl rfl))),ihl h.2.1 fun a ha => hs a (.inl ha),
      ihr h.2.2 fun a ha => hs a (.inr (.inr ha))⟩

/-- Moving a tree below another parent changes its root only. -/
theorem rep_reparent {p q : Addr} (h : Rep m p t)
    (hn : t.toList.Nodup) (hp : root t≠0 → rtlOps.parent m' (root t)=q)
    (hr : ∀ s, root t≠0 → rtlOps.child m' s (root t)=rtlOps.child m s (root t))
    (hb : root t≠0 → rtlOps.balance m' (root t)=rtlOps.balance m (root t))
    (hs : ∀ a∈t.toList, a≠root t → SameAt m m' a) : Rep m' q t := by
  cases t with
  | nil => trivial
  | node l x b r =>
    have hx : root (.node l x b r)≠0 := h.1.ne
    simp only [root,BTree.toList] at hp hr hb hs hn hx
    obtain ⟨hl,hxr,hd⟩ := nodup_append.mp hn
    refine ⟨⟨hx,hp hx,(hr _ hx).trans h.1.near,(hr _ hx).trans h.1.far,
      (hb hx).trans h.1.balance⟩,rep_congr h.2.1 ?_,rep_congr h.2.2 ?_⟩
    · intro a ha
      exact hs a (by simp [ha]) (hd a ha x (by simp))
    · intro a ha
      refine hs a (by simp [ha]) ?_
      rintro rfl
      exact (nodup_cons.mp hxr).1 ha

def top (r : Addr) : Path Addr → Addr
  | [] => r
  | c::_ => c.label

def RepPath (m : RtlMem) (r hole : Addr) : Path Addr → Prop
  | [] => rtlOps.parent m r=r ∧ rtlOps.child m .left r=0 ∧ rtlOps.child m .right r=hole
  | c::p => NodeAt m c.side c.label (top r p) hole (root c.sibling) c.balance ∧
      Rep m c.label c.sibling ∧ RepPath m r c.label p

structure Zip (m : RtlMem) (r : Addr) (t : BTree Addr) (p : Path Addr) : Prop where
  focus : Rep m (top r p) t
  path : RepPath m r (root t) p
  nodup : (r::(t.toList++labels p)).Nodup
  root_ne : r≠0

variable {p : Path Addr}

theorem zip_up {c : Crumb Addr} :
    Zip m r t (c::p) ↔ Zip m r (join c.side c.label c.balance t c.sibling) p := by
  have hperm : (r::(t.toList++labels (c::p))).Perm
      (r::((join c.side c.label c.balance t c.sibling).toList++labels p)) := by
    refine List.Perm.cons r (List.Perm.symm (((toList_join_perm ..).append_right _).trans ?_))
    simpa [labels] using (@perm_middle _ c.label t.toList
      (c.sibling.toList++labels p)).symm
  constructor
  · intro h
    exact ⟨rep_join.mpr ⟨h.path.1,h.focus,h.path.2.1⟩,by simpa using h.path.2.2,
      hperm.nodup_iff.mp h.nodup,h.root_ne⟩
  · intro h
    obtain ⟨hn,hf,ho⟩ := rep_join.mp h.focus
    exact ⟨hf,⟨hn,ho,by simpa using h.path⟩,hperm.nodup_iff.mpr h.nodup,h.root_ne⟩

theorem zip_plug {p q : Path Addr} : Zip m r t (p++q) ↔ Zip m r (plug t p) q := by
  induction p generalizing t with
  | nil => rfl
  | cons c p ih => exact zip_up.trans ih

theorem repPath_congr (h : RepPath m r hole p) (hr : ∀ s, rtlOps.child m' s r=rtlOps.child m s r)
    (hpar : rtlOps.parent m' r=rtlOps.parent m r) (hs : ∀ a∈labels p, SameAt m m' a) :
      RepPath m' r hole p := by
  induction p generalizing hole with
  | nil => exact ⟨hpar.trans h.1,(hr .left).trans h.2.1,(hr .right).trans h.2.2⟩
  | cons c p ih =>
    simp only [labels,mem_cons,mem_append] at hs
    exact ⟨h.1.congr (hs _ (.inl rfl)),rep_congr h.2.1 fun a ha => hs a (.inr (.inl ha)),
      ih h.2.2 fun a ha => hs a (.inr (.inr ha))⟩

theorem Zip.congr (h : Zip m r t p) (hs : ∀ a∈r::(t.toList++labels p), SameAt m m' a) :
    Zip m' r t p :=
  ⟨rep_congr h.focus fun a ha => hs a (by simp [ha]),
    repPath_congr h.path (hs r (by simp)).child (hs r (by simp)).parent fun a ha =>
      hs a (by simp [ha]),h.nodup,h.root_ne⟩

def topSide : Path Addr → Side
  | [] => .right
  | c::_ => c.side

theorem RepPath.child_top (h : RepPath m r hole p) : rtlOps.child m (topSide p) (top r p)=hole := by
  cases p with
  | nil => exact h.2.2
  | cons c p => exact h.1.near

/-- Redirecting that one pointer moves the path to another hole. -/
theorem RepPath.redirect {r hole hole' : Addr} (h : RepPath m r hole p) (hn : (r::labels p).Nodup)
    (hpar : ∀ a∈r::labels p, rtlOps.parent m' a=rtlOps.parent m a)
    (hbal : ∀ a∈labels p, rtlOps.balance m' a=rtlOps.balance m a)
    (hch : ∀ a∈r::labels p, ∀ s, ¬(a=top r p ∧ s=topSide p) →
      rtlOps.child m' s a=rtlOps.child m s a)
    (hnew : rtlOps.child m' (topSide p) (top r p)=hole') : RepPath m' r hole' p := by
  cases p with
  | nil =>
    refine ⟨(hpar r (by simp)).trans h.1,?_,hnew⟩
    exact (hch r (by simp) .left (by simp [topSide])).trans h.2.1
  | cons c p =>
    have hc : c.label∉c.sibling.toList++labels p := by
      have := (nodup_cons.mp (nodup_cons.mp hn).2).1
      simpa [labels] using this
    have hrc : r≠c.label := by
      have := (nodup_cons.mp hn).1
      intro he
      exact this (by simp [labels,he])
    have hsame : ∀ a∈c.sibling.toList++labels p, SameAt m m' a := by
      intro a ha
      have hac : a≠c.label := by rintro rfl; exact hc ha
      have hm : a∈r::labels (c::p) := by simp [labels,mem_append.mp ha]
      exact ⟨hpar a hm,fun s => hch a hm s (by simp [top,hac]),
        hbal a (by simp [labels,mem_append.mp ha])⟩
    have hcm : c.label∈r::labels (c::p) := by simp [labels]
    refine ⟨⟨h.1.ne,(hpar _ hcm).trans h.1.parent,hnew,?_,
      (hbal _ (by simp [labels])).trans h.1.balance⟩,?_,?_⟩
    · exact (hch _ hcm _ (by simp [topSide])).trans h.1.far
    · exact rep_congr h.2.1 fun a ha => hsame a (by simp [ha])
    · refine repPath_congr h.2.2 (fun s => hch r (by simp) s (by simp [top,hrc]))
        (hpar r (by simp)) fun a ha => hsame a (by simp [ha])

theorem Zip.top_mem (_ : Zip m r t p) : top r p∈r::labels p := by
  cases p <;> simp [top,labels]

theorem Zip.ne_root (h : Zip m r t p) (hz : z∈t.toList) : r≠z := by
  rintro rfl
  exact (nodup_cons.mp h.nodup).1 (by simp [hz])

theorem Zip.ne_top (h : Zip m r t p) (hz : z∈t.toList) : z≠top r p := by
  rintro rfl
  obtain hr | hp := mem_cons.mp h.top_mem
  · exact h.ne_root hz hr.symm
  · exact (nodup_append.mp (nodup_cons.mp h.nodup).2).2.2 _ hz _ hp rfl

section
variable (h : Zip m r t p) (ht : root t≠0)
include h ht

theorem Zip.parent_root : rtlOps.parent m (root t)=top r p := by
  cases t with
  | nil => exact absurd rfl ht
  | node l a b r => exact h.focus.1.parent

/-- The node above points to the focus from one side only. -/
theorem Zip.child_top_iff (s : Side) : rtlOps.child m s (top r p)=root t ↔ topSide p=s := by
  constructor
  · intro he
    by_contra hs
    have hflip : s=(topSide p).flip := by
      cases s <;> cases hp : topSide p <;> simp_all [Side.flip]
    rw [hflip] at he
    cases p with
    | nil => exact ht (he.symm.trans h.path.2.1)
    | cons c p =>
      have hfar : root c.sibling=root t := h.path.1.far.symm.trans he
      have hmem : root t∈c.sibling.toList := by
        rw [← hfar] at ht ⊢
        exact root_mem ht
      have hn := (nodup_cons.mp h.nodup).2
      exact (nodup_append.mp hn).2.2 _ (root_mem ht) _ (by simp [labels,hmem]) rfl
  · rintro rfl
    exact h.path.child_top

/-- Which child the focus is, as the code tests it. -/
theorem Zip.isLeftChild : rtlOps.isLeftChild m (root t)=decide (topSide p = .left) := by
  rw [NodeOps.isLeftChild,h.parent_root ht]
  exact decide_eq_decide.mpr (h.child_top_iff ht .left)

theorem Zip.isRightChild : rtlOps.isRightChild m (root t)=decide (topSide p = .right) := by
  rw [isRightChild_eq,h.parent_root ht]
  exact decide_eq_decide.mpr (h.child_top_iff ht .right)

end

theorem topSide_join {r a : Addr} (h : Zip m r t p) (ht : root t≠0) (ha : root t=a) :
    (if rtlOps.isLeftChild m a then Side.left else .right)=topSide p := by
  subst ha
  rw [h.isLeftChild ht]
  cases hs : topSide p <;> simp

theorem Zip.balance_join (h : Zip m r (join s a b x y) p) : rtlOps.balance m a=b :=
  (rep_join.mp h.focus).1.balance

theorem Zip.parent_join (h : Zip m r (join s a b x y) p) : rtlOps.parent m a=top r p :=
  (rep_join.mp h.focus).1.parent

/-- Writing a balance factor. -/
theorem Zip.setBalance (h : Zip m r (join s a b x y) p) (b' : Int) :
    Zip (rtlOps.setBalance m a b') r (join s a b' x y) p := by
  obtain ⟨hn,hx,hy⟩ := rep_join.mp h.focus
  have hnd : (r::(a::(x.toList++y.toList)++labels p)).Nodup :=
    (((toList_join_perm s a b x y).append_right _).cons r).nodup_iff.mp h.nodup
  have ha : ∀ z, z∈x.toList ∨ z∈y.toList ∨ z∈labels p → z≠a := by
    intro z hz he
    subst he
    have := (nodup_cons.mp (nodup_cons.mp hnd).2).1
    exact this (by simpa [or_assoc] using hz)
  have hsame : ∀ z, z≠a → SameAt m (rtlOps.setBalance m a b') z := by
    intro z hz
    exact ⟨by simp,by simp,by simp [hz]⟩
  refine ⟨rep_join.mpr ⟨⟨hn.ne,by simpa using hn.parent,by simpa using hn.near,
      by simpa using hn.far,by simp⟩,?_,?_⟩,?_,?_,h.root_ne⟩
  · exact rep_congr hx fun z hz => hsame z (ha z (.inl hz))
  · exact rep_congr hy fun z hz => hsame z (ha z (.inr (.inl hz)))
  · rw [root_join] at *
    refine repPath_congr (by simpa using h.path) (by simp) (by simp) ?_
    exact fun z hz => hsame z (ha z (.inr (.inr hz)))
  · exact (((toList_join_perm s a b' x y).append_right _).cons r).nodup_iff.mpr hnd

/-- The balance of the table's own node is free for the sentinel trick. -/
theorem Zip.setBalance_root (h : Zip m r t p) (b : Int) : Zip (rtlOps.setBalance m r b) r t p := by
  have hr : ∀ z, z∈t.toList ∨ z∈labels p → z≠r := by
    intro z hz he
    subst he
    exact (nodup_cons.mp h.nodup).1 (by simpa using hz)
  have hsame : ∀ z, z≠r → SameAt m (rtlOps.setBalance m r b) z := by
    intro z hz
    exact ⟨by simp,by simp,by simp [hz]⟩
  refine ⟨rep_congr h.focus fun z hz => hsame z (hr z (.inl hz)),?_,h.nodup,h.root_ne⟩
  exact repPath_congr h.path (by simp) (by simp) fun z hz => hsame z (hr z (.inr hz))

/-- The links after a promotion, in terms of the links before it. -/
theorem promote_links {s sq : Side} {a c q : Addr} {w : Addr}
    (hpc : rtlOps.parent m c=a) (hpa : rtlOps.parent m a=q) (hw : rtlOps.child m s.flip c=w)
    (hs : (if rtlOps.isLeftChild m c then Side.left else .right)=s)
    (hsq : (if rtlOps.isLeftChild m a then Side.left else .right)=sq)
    (hqa : q≠a) (hqc : q≠c) (z : Addr) :
    rtlOps.parent (rtlPromoteAvlTreeNode rtlOps m c) z =
        (if z=c then q else if z=a then c else if z=w ∧ w≠0 then a
          else rtlOps.parent m z) ∧
      (∀ u, rtlOps.child (rtlPromoteAvlTreeNode rtlOps m c) u z =
        if z=q ∧ u=sq then c else if z=c ∧ u=s.flip then a
          else if z=a ∧ u=s then w else rtlOps.child m u z) ∧
      rtlOps.balance (rtlPromoteAvlTreeNode rtlOps m c) z=rtlOps.balance m z := by
  have hsq' : (if rtlOps.child m .left q=a then Side.left else .right)=sq := by
    rw [← hsq,NodeOps.isLeftChild,hpa]
    simp
  by_cases h0 : w=0#32
  · simp only [rtlPromoteAvlTreeNode,hpc,hpa,hs,hw]
    simp [h0,hqa,hqc,hsq']
  · simp only [rtlPromoteAvlTreeNode,hpc,hpa,hs,hw]
    simp [h0,hqa,hqc,hsq']

variable {o : BTree Addr} {ba bc : Int} {c : Addr}

/-- The rotation that lifts `c` above its parent `a`, stored balances untouched. -/
theorem Zip.promote (h : Zip m r (join s c bc x y) (⟨s,a,ba,o⟩::p)) :
    Zip (rtlPromoteAvlTreeNode rtlOps m c) r (join s c bc x (join s a ba y o)) p := by
  obtain ⟨hc,hx,hy⟩ := rep_join.mp h.focus
  obtain ⟨ha,ho,hp⟩ := h.path
  have hnd : (r::(c::(x.toList++y.toList)++(a::(o.toList++labels p)))).Nodup := by
    simpa [labels] using
      (((toList_join_perm s c bc x y).append_right _).cons r).nodup_iff.mp h.nodup
  simp only [cons_append,append_assoc,nodup_cons,mem_cons,mem_append,not_or] at hnd
  obtain ⟨⟨hrc,hrx,hry,hra,hro,hrp⟩,⟨hcx,hcy,hca,hco,hcp⟩,hrest⟩ := hnd
  obtain ⟨hxn,hrest,hxd⟩ := nodup_append.mp hrest
  obtain ⟨hyn,hrest,hyd⟩ := nodup_append.mp hrest
  obtain ⟨han,hrest⟩ := nodup_cons.mp hrest
  obtain ⟨hon,hpn,hod⟩ := nodup_append.mp hrest
  have hq : top r p=r ∨ top r p∈labels p := by simpa using (zip_up.mp h).top_mem
  have hne : ∀ z, z≠r → z∉labels p → z≠top r p := by
    intro z h1 h2 he
    obtain hq | hq := hq
    · exact h1 (he.trans hq)
    · exact h2 (he ▸ hq)
  have hqc : c≠top r p := hne c (Ne.symm hrc) hcp
  have hqa : a≠top r p := hne a (Ne.symm hra) (by simp at han; exact han.2)
  have hwne : ∀ z, z∉y.toList → z=root y → z=0 := by
    intro z hz he
    by_contra h0
    exact hz (he ▸ root_mem (he ▸ h0))
  have hl := promote_links (a := a) hc.parent ha.parent hc.far
    (topSide_join h (by simpa using hc.ne) (root_join ..))
    (topSide_join (zip_up.mp h) (by simpa using ha.ne) (root_join ..))
    (Ne.symm hqa) (Ne.symm hqc)
  generalize rtlPromoteAvlTreeNode rtlOps m c=m' at hl ⊢
  have hsame : ∀ z, z≠c → z≠a → z≠top r p → (z=root y → z=0) → SameAt m m' z := by
    intro z h1 h2 h3 h4
    obtain ⟨hlp,hlc,hlb⟩ := hl z
    refine ⟨?_,fun u => ?_,hlb⟩
    · rw [hlp,if_neg h1,if_neg h2,if_neg]
      rintro ⟨he,h0⟩
      exact h0 (he ▸ h4 he)
    · rw [hlc]; simp [h1,h2,h3]
  have hin : ∀ z, z∈x.toList ∨ z∈o.toList → SameAt m m' z := by
    intro z hz
    have hz' : z≠c ∧ z≠a ∧ z≠r ∧ z∉labels p ∧ z∉y.toList := by
      obtain hz | hz := hz
      · exact ⟨fun e => hcx (e ▸ hz),hxd z hz a (by simp),fun e => hrx (e ▸ hz),
          fun e => hxd z hz z (by simp [e]) rfl,fun e => hxd z hz z (by simp [e]) rfl⟩
      · exact ⟨fun e => hco (e ▸ hz),fun e => han (by simp [← e,hz]),fun e => hro (e ▸ hz),
          fun e => hod z hz z e rfl,fun e => hyd z e z (by simp [hz]) rfl⟩
    exact hsame z hz'.1 hz'.2.1 (hne z hz'.2.2.1 hz'.2.2.2.1) (hwne z hz'.2.2.2.2)
  refine ⟨rep_join.mpr ⟨?_,rep_congr hx fun z hz => hin z (.inl hz),rep_join.mpr ⟨?_,?_,
    rep_congr ho fun z hz => hin z (.inr hz)⟩⟩,?_,?_,h.root_ne⟩
  · obtain ⟨hlp,hlc,hlb⟩ := hl c
    exact ⟨hc.ne,by simp [hlp],by simp [hlc,hqc,hca,hc.near],by simp [hlc,hqc],hlb.trans hc.balance⟩
  · obtain ⟨hlp,hlc,hlb⟩ := hl a
    exact ⟨ha.ne,by simp [hlp,Ne.symm hca],by simp [hlc,hqa,Ne.symm],
      by simp [hlc,hqa,Ne.symm hca,ha.far],hlb.trans ha.balance⟩
  · have hz : ∀ z∈y.toList, z≠c ∧ z≠a ∧ z≠top r p := by
      intro z hz
      exact ⟨fun e => hcy (e ▸ hz),hyd z hz a (by simp),hne z (fun e => hry (e ▸ hz))
        fun e => hyd z hz z (by simp [e]) rfl⟩
    refine rep_reparent hy hyn ?_ ?_ ?_ ?_
    · intro h0
      obtain ⟨h1,h2,h3⟩ := hz _ (root_mem h0)
      rw [(hl _).1,if_neg h1,if_neg h2,if_pos ⟨rfl,h0⟩]
    · intro u h0
      obtain ⟨h1,h2,h3⟩ := hz _ (root_mem h0)
      simp [(hl _).2.1,h1,h2,h3]
    · exact fun _ => (hl _).2.2
    · intro z hzm hzr
      obtain ⟨h1,h2,h3⟩ := hz z hzm
      exact hsame z h1 h2 h3 fun e => absurd e hzr
  · rw [root_join]
    have hlab : ∀ z∈r::labels p, z≠c ∧ z≠a ∧ (z=root y → z=0) := by
      intro z hz
      obtain rfl | hz := mem_cons.mp hz
      · exact ⟨hrc,hra,hwne _ hry⟩
      · exact ⟨fun e => hcp (e ▸ hz),fun e => han (by simp [← e,hz]),
          hwne z fun e => hyd z e z (by simp [hz]) rfl⟩
    refine hp.redirect (nodup_cons.mpr ⟨hrp,hpn⟩) ?_ (fun z _ => (hl z).2.2) ?_ ?_
    · intro z hz
      obtain ⟨h1,h2,h3⟩ := hlab z hz
      rw [(hl z).1,if_neg h1,if_neg h2,if_neg]
      rintro ⟨he,h0⟩
      exact h0 (he ▸ h3 he)
    · intro z hz u hu
      obtain ⟨h1,h2,h3⟩ := hlab z hz
      rw [(hl z).2.1,if_neg hu]
      simp [h1,h2]
    · rw [(hl _).2.1,if_pos ⟨rfl,rfl⟩]
  · rw [toList_rotate]
    exact (zip_up.mp h).nodup

@[simp] theorem balance_promote (m : RtlMem) (c z : Addr) :
    rtlOps.balance (rtlPromoteAvlTreeNode rtlOps m c) z=rtlOps.balance m z := by
  simp only [rtlPromoteAvlTreeNode,balance_setParent,balance_setChild]
  split_ifs <;> simp

variable {s' : Side}

theorem Zip.setBalance_near (h : Zip m r (join s a ba (join s' c bc x y) o) p) (b : Int) :
    Zip (rtlOps.setBalance m c b) r (join s a ba (join s' c b x y) o) p := by
  have hz : Zip m r (join s' c bc x y) (⟨s,a,ba,o⟩::p) := zip_up.mpr h
  exact zip_up.mp (hz.setBalance b)

section
variable (h : Zip m r (join s a ba o (join s' c bc x y)) p)
include h

theorem Zip.setBalance_far (b : Int) :
    Zip (rtlOps.setBalance m c b) r (join s a ba o (join s' c b x y)) p := by
  rw [← join_flip] at h ⊢
  exact h.setBalance_near b

theorem Zip.parent_far : rtlOps.parent m c=a := by
  have hf := (rep_join.mp h.focus).2.2
  exact (rep_join.mp hf).1.parent

theorem Zip.ne_far : a≠c ∧ r≠a ∧ r≠c := by
  have hp : ((join s a ba o (join s' c bc x y)).toList).Perm
      (a::(o.toList++(c::(x.toList++y.toList)))) :=
    (toList_join_perm ..).trans (((toList_join_perm ..).append_left _).cons a)
  have hn := ((hp.append_right (labels p)).cons r).nodup_iff.mp h.nodup
  simp only [cons_append,nodup_cons,mem_cons,mem_append,not_or] at hn
  exact ⟨hn.2.1.1.2.1,hn.1.1,hn.1.2.1.2.1⟩

end

/-- The two promotions that lift `d` above `c` and then above `a`. -/
theorem Zip.promote_twice {a c d : Addr} {ba bc bd : Int} {x y₁ y₂ o : BTree Addr}
    (h : Zip m r (join s c bc x (join s d bd y₁ y₂)) (⟨s,a,ba,o⟩::p)) :
    Zip (rtlPromoteAvlTreeNode rtlOps (rtlPromoteAvlTreeNode rtlOps m d) d) r
      (join s d bd (join s c bc x y₁) (join s a ba y₂ o)) p := by
  have h1 : Zip m r (join s.flip d bd y₂ y₁) (⟨s.flip,c,bc,x⟩::⟨s,a,ba,o⟩::p) := by
    refine zip_up.mpr ?_
    simpa only [join_flip] using h
  have h2 := h1.promote
  rw [join_flip,join_flip] at h2
  exact h2.promote

/-- What `RtlpRebalanceAvlTreeNode` does to a node that leans too far to side `s`. When
the subtree lost a level, its new root is above `a` and is balanced. -/
theorem Zip.rebalance {h o : BTree Addr} (hz : Zip m r h (⟨s,a,s.weight,o⟩::p))
    (hb : h.Balanced) (hh : h.height=o.height+2) :
    Zip (rtlpRebalanceAvlTreeNode rtlOps m a).1 r (AvlTree.rebalance s a h o).1 p ∧
      (rtlpRebalanceAvlTreeNode rtlOps m a).2=(AvlTree.rebalance s a h o).2 ∧
      rtlOps.balance (rtlpRebalanceAvlTreeNode rtlOps m a).1 r=rtlOps.balance m r ∧
      ((rtlpRebalanceAvlTreeNode rtlOps m a).2=false →
        rtlOps.parent (rtlpRebalanceAvlTreeNode rtlOps m a).1 a =
            root (AvlTree.rebalance s a h o).1 ∧
          rtlOps.balance (rtlpRebalanceAvlTreeNode rtlOps m a).1
            (root (AvlTree.rebalance s a h o).1)=0 ∧ root (AvlTree.rebalance s a h o).1≠0) := by
  have ha : rtlOps.balance m a=s.weight := hz.path.1.balance
  have hside : (if s.weight=1 then Side.right else .left)=s := by cases s <;> rfl
  have hchild : rtlOps.child m s a=root h := hz.path.1.near
  obtain ⟨c,x,y,rfl | rfl | ⟨d,bd,y₁,y₂,rfl,rfl⟩⟩ := heavy_cases s hb hh
  · have hc : rtlOps.balance m c=s.weight := hz.balance_join
    have h1 := ((hz.promote).setBalance 0).setBalance_far 0
    have hne := hz.promote.ne_far
    simp only [rtlpRebalanceAvlTreeNode,ha,hside,hchild,root_join,hc,if_true,rebalance_single]
    exact ⟨h1,trivial,by simp [hne],fun _ => ⟨h1.parent_far,by simp,by
      simpa using (rep_join.mp h1.focus).1.ne⟩⟩
  · have hc : rtlOps.balance m c=0 := hz.balance_join
    have h1 := hz.promote.setBalance (-s.weight)
    have hne := hz.promote.ne_far
    have h0 : ¬(0 : Int)=s.weight := fun e => s.weight_ne_zero e.symm
    have h0' : ¬(0 : Int) = -s.weight := fun e => s.weight_ne_zero (by omega)
    simp only [rtlpRebalanceAvlTreeNode,ha,hside,hchild,root_join,hc,h0,h0',if_false,rebalance_even]
    exact ⟨h1,trivial,by simp [hne],by simp⟩
  · have hc : rtlOps.balance m c = -s.weight := hz.balance_join
    have hd : rtlOps.child m s.flip c=d := by
      simpa using (rep_join.mp hz.focus).1.far
    have h2 := hz.promote_twice
    have hbd := h2.balance_join
    have hne := h2.ne_far
    have hneg : ¬-s.weight=s.weight := fun e => s.weight_ne_zero (by omega)
    have h3 := ((h2.setBalance_near (doubleWeights s bd).1).setBalance_far
      (doubleWeights s bd).2).setBalance 0
    have hm : (if bd=s.weight then
          rtlOps.setBalance (rtlOps.setBalance (rtlPromoteAvlTreeNode rtlOps
            (rtlPromoteAvlTreeNode rtlOps m d) d) c 0) a (-s.weight)
        else if bd = -s.weight then
          rtlOps.setBalance (rtlOps.setBalance (rtlPromoteAvlTreeNode rtlOps
            (rtlPromoteAvlTreeNode rtlOps m d) d) c s.weight) a 0
        else rtlOps.setBalance (rtlOps.setBalance (rtlPromoteAvlTreeNode rtlOps
            (rtlPromoteAvlTreeNode rtlOps m d) d) c 0) a 0) =
        rtlOps.setBalance (rtlOps.setBalance (rtlPromoteAvlTreeNode rtlOps
          (rtlPromoteAvlTreeNode rtlOps m d) d) c (doubleWeights s bd).1) a
          (doubleWeights s bd).2 := by
      unfold doubleWeights
      split_ifs <;> rfl
    have hrc : r≠c := hz.ne_root (by simp)
    simp only [rtlpRebalanceAvlTreeNode,ha,hside,hchild,root_join,hc,hneg,if_false,if_true,
      hd,hbd,hm,rebalance_double]
    exact ⟨h3,trivial,by simp [hne,hrc],fun _ => ⟨h3.parent_far,by simp,by
      simpa using (rep_join.mp h3.focus).1.ne⟩⟩

end Odyssey.Avl
