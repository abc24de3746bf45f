import Odyssey.Mm.VadTree

/-! The search for a free range in the tree of virtual address descriptors, and what holds in
every run of insertions, removals and lookups. -/
namespace Odyssey.Mm
open Odyssey.Avl AvlTree Function List Nat Option

variable {A B : List Addr}

section Next
variable {m : MiMem} {r n : Addr} {t : BTree Addr} {p : Path Addr} {fuel : Nat}

/-- The climb from a node without a right child stops at the first node after it, or at the
table's own node when there is none. -/
theorem nextLoop_spec (hz : Zip (unpack m) r t p) (ht : root t≠0)
    (hf : p.length+1<fuel) : nextLoop m fuel (root t)=some ((Path.after p).headD 0) := by
  have hne : ∀ {t : BTree Addr} {p : Path Addr}, Zip (unpack m) r t p → root t≠0 →
      top r p≠root t := fun hz ht => (hz.ne_top (root_mem ht)).symm
  induction p generalizing t fuel with
  | nil =>
    obtain ⟨fuel,rfl⟩ := Nat.exists_eq_add_of_lt hf
    have hroot : rtlOps.parent (unpack m) r=r := hz.path.1
    simp only [length_nil,Nat.zero_add]
    rw [show 1+fuel+1=fuel+1+1 by omega,nextLoop,miOps_parent,hz.parent_root ht,
      miOps_isLeftChild,hz.isLeftChild ht]
    simp [topSide,top,nextLoop,hroot,Path.after]
  | cons c p ih =>
    obtain ⟨fuel,rfl⟩ := exists_eq_succ_of_ne_zero (by omega : fuel≠0)
    rw [nextLoop,miOps_parent,hz.parent_root ht,if_neg (hne hz ht),miOps_isLeftChild,
      hz.isLeftChild ht]
    cases hc : c.side with
    | left => simp [topSide,top,Path.after,hc]
    | right =>
      have hz' := zip_up.mp hz
      have := ih hz' (by simpa using hz.path.1.ne) (show _<fuel by simp at hf; omega)
      simpa [topSide,top,Path.after,hc] using this

/-- `MiGetNextNode` of a node of the tree. -/
theorem miGetNextNode_spec (hz : Zip (unpack m) r t [])
    (ht : t.toList=A++n::B) (hf : t.toList.length<fuel) :
    miGetNextNode m fuel n=some (B.headD 0) := by
  obtain ⟨l,b,u,p,rfl,hzn,-,rfl⟩ := hz.at ht
  have hlen : p.length<fuel := lt_of_le_of_lt (length_path_le _ p) hf
  have hfar : rtlOps.child (unpack m) .right n=root u := hzn.focus.1.far
  rw [miGetNextNode,miOps_child,hfar]
  by_cases h0 : root u=0
  · rw [hzn.focus.2.2.root_eq_zero.mp h0]
    simpa [root,BTree.toList] using nextLoop_spec hzn hzn.focus.1.ne
      (show p.length+1<fuel+1 by omega)
  · have hu : u.toList.length<fuel := by
      rw [ht] at hf
      simp only [length_append,length_cons] at hf
      omega
    obtain ⟨d,l,hd⟩ := exists_cons_of_ne_nil (ne_nil_of_mem (root_mem h0))
    rw [if_pos h0,lastNode_unpack,lastNode_left hzn.focus.2.2 h0 hu,hd]
    rfl

end Next

section Gap
variable {v : VadTable} {t : BTree Addr} {k : Nat} {alignment : Nat} {n base : Nat} {node : Addr}

/-- `Alignment` is a power of two and at least a page: `2 ^ k` pages. -/
structure IsAlignment (alignment k : Nat) : Prop where
  eq : alignment=2^k*4096
  lt : k<20

theorem IsAlignment.pages (h : IsAlignment alignment k) :
    alignment/4096=2^k ∧ 0<2^k ∧ 2^k ∣ 2^20 ∧ 2^k≤2^19 := by
  refine ⟨by rw [h.eq,Nat.mul_div_cancel _ (by decide)],Nat.two_pow_pos k,
    pow_dvd_pow 2 (by have := h.lt; omega),Nat.pow_le_pow_right (by decide)
      (by have := h.lt; omega)⟩

/-- The first page from `x` on whose number is a multiple of `2 ^ k`. -/
def alignVpn (k x : Nat) : Nat := (x+2^k-1)/2^k*2^k

theorem roundUp_eq {x : Nat} (hx : x+2^k≤2^32) : roundUp x (2^k)=alignVpn k x := by
  rw [roundUp,mod_eq_of_lt (by omega),alignVpn]

theorem le_alignVpn (k x : Nat) : x≤alignVpn k x := by
  have := Nat.lt_div_mul_add (Nat.two_pow_pos k) (a := x+2^k-1)
  rw [alignVpn]
  omega

theorem alignVpn_lt (k x : Nat) : alignVpn k x<x+2^k := by
  have hle : alignVpn k x≤x+2^k-1 := Nat.div_mul_le_self _ _
  have := Nat.two_pow_pos k
  omega

theorem dvd_alignVpn (k x : Nat) : 2^k ∣ alignVpn k x := dvd_mul_left ..

theorem alignVpn_le {x y : Nat} (hy : 2^k ∣ y) (hxy : x≤y) : alignVpn k x≤y := by
  obtain ⟨c,rfl⟩ := hy
  have hpos := Nat.two_pow_pos k
  rw [alignVpn,Nat.mul_comm]
  refine Nat.mul_le_mul_left _ ?_
  rw [div_le_iff_le_mul_add_pred hpos]
  omega

/-- Rounding the last byte of a page range up to a multiple of the alignment gives the first
byte of the page that rounding up the page number gives, if that page is below 4 GB. -/
theorem baseBehind_eq (hal : IsAlignment alignment k)
    (he : v.endingVpn node<2^20) (hlow : alignVpn k (v.endingVpn node+1)<2^20) :
    baseBehind v alignment node=alignVpn k (v.endingVpn node+1)*4096 := by
  obtain ⟨-,hpos,hdvd,-⟩ := hal.pages
  have hle := le_alignVpn k (v.endingVpn node+1)
  -- the sum does not wrap, since 4 GB are a multiple of the alignment
  have hsum : 2^k≤2^20-alignVpn k (v.endingVpn node+1) :=
    le_of_dvd (by omega) (dvd_sub hdvd (dvd_alignVpn ..))
  rw [baseBehind,hal.eq,roundUp]
  rw [alignVpn] at hle hsum ⊢
  generalize v.endingVpn node=e at *
  generalize 2^k=a at *
  have hor : (e*4096%2^32) ||| 4095=e*4096+4095 := by
    rw [mod_eq_of_lt (by omega),mul_comm]
    exact (two_pow_add_eq_or_of_lt (i := 12) (by decide) e).symm
  have hdiv : (e*4096+4095+a*4096-1)/(a*4096)=(e+1+a-1)/a := by
    rw [Nat.mul_comm a,← Nat.div_div_eq_div_mul]
    congr 1
    omega
  rw [hor,mod_eq_of_lt (by omega),hdiv,mul_assoc]

def pastHighestVpn : Nat := (mmHighestVadAddress+1)/4096

def gapEnd (v : VadTable) : List Addr → Nat
  | [] => pastHighestVpn
  | b::_ => v.startingVpn b

def Takes (v : VadTable) (k n : Nat) (a : Addr) (B : List Addr) : Prop :=
  alignVpn k (v.endingVpn a+1)<gapEnd v B ∧ alignVpn k (v.endingVpn a+1)+n≤gapEnd v B

instance (v : VadTable) (k n : Nat) (a : Addr) (B : List Addr) : Decidable (Takes v k n a B) :=
  inferInstanceAs (Decidable (_ ∧ _))

def firstGap (v : VadTable) (k n : Nat) : List Addr → Option (Addr × Nat)
  | [] => none
  | a::B =>
    if Takes v k n a B then some (a, alignVpn k (v.endingVpn a+1)*4096) else firstGap v k n B

theorem gapLoop_eq (h : VadTree v t) {alignment n fuel : Nat}
    (hal : IsAlignment alignment k) (ht : t.toList=A++node::B) (hf : B.length<fuel) :
    gapLoop v n alignment fuel node=some (firstGap v k n (node::B)) := by
  obtain ⟨halign,hpos,hdvd,hle⟩ := hal.pages
  induction B generalizing A node fuel with
  | nil =>
    obtain ⟨fuel,rfl⟩ := exists_eq_succ_of_ne_zero (by omega : fuel≠0)
    have hnode := h.range node (by simp [ht])
    have hnext := miGetNextNode_spec h.zip ht (show _<v.fuel by rw [VadTable.fuel,h.count]; omega)
    rw [gapLoop,halign,mod_eq_of_lt (by omega),roundUp_eq (by omega),hnext,firstGap]
    simp only [headD_nil,bind_eq_bind,bind_some,if_pos]
    have hhigh : (mmHighestVadAddress+1)/4096<2^20 := by decide
    by_cases hfit : Takes v k n node []
    · have hends : _<(mmHighestVadAddress+1)/4096 ∧ _≤(mmHighestVadAddress+1)/4096 := hfit
      rw [if_pos hfit,if_pos (by omega),baseBehind_eq hal hnode.2 (by omega)]
    · rw [if_neg hfit,if_neg]
      · rfl
      · intro hboth
        exact hfit ⟨hboth.1,show _≤(mmHighestVadAddress+1)/4096 by omega⟩
  | cons next B ih =>
    obtain ⟨fuel,rfl⟩ := exists_eq_succ_of_ne_zero (by omega : fuel≠0)
    have hnode := h.range node (by simp [ht])
    have hnextr := h.range next (by simp [ht])
    have hnext := miGetNextNode_spec h.zip ht (show _<v.fuel by rw [VadTable.fuel,h.count]; omega)
    have hn0 : next≠0 := rep_ne_zero h.zip.focus next (by simp [ht])
    rw [gapLoop,halign,mod_eq_of_lt (by omega),roundUp_eq (by omega),hnext,firstGap]
    simp only [headD_cons,bind_eq_bind,bind_some,if_neg hn0]
    by_cases hfit : Takes v k n node (next::B)
    · have hends : _<v.startingVpn next ∧ _≤v.startingVpn next := hfit
      rw [if_pos hfit,if_pos (by omega),baseBehind_eq hal hnode.2 (by omega)]
    · rw [if_neg hfit,if_neg]
      · exact ih (A := A++[node]) (by simp [ht]) (by simpa using hf)
      · intro hboth
        exact hfit ⟨hboth.2,show _≤v.startingVpn next by omega⟩

theorem firstGap_eq_some {l : List Addr} {a : Addr} (h : firstGap v k n l=some (a, base)) :
    ∃ A B, l=A++a::B ∧ Takes v k n a B ∧ base=alignVpn k (v.endingVpn a+1)*4096 := by
  induction l with
  | nil => cases h
  | cons b B ih =>
    rw [firstGap] at h
    by_cases hfit : Takes v k n b B
    · rw [if_pos hfit] at h
      obtain ⟨rfl,rfl⟩ := Prod.mk.inj (Option.some.inj h)
      exact ⟨[],B,rfl,hfit,rfl⟩
    · rw [if_neg hfit] at h
      obtain ⟨A,B',rfl,hrest⟩ := ih h
      exact ⟨b::A,B',rfl,hrest⟩

def emptyRange (v : VadTable) (k n : Nat) : List Addr → Option (Addr × Nat)
  | [] => some (0, alignVpn k 16*4096)
  | a::B =>
    if alignVpn k 16+n<v.startingVpn a then some (0, alignVpn k 16*4096)
    else firstGap v k n (a::B)

/-- `MiFindEmptyAddressRangeInTree` walks over the nodes in order. -/
theorem VadTree.miFindEmptyAddressRangeInTree (h : VadTree v t) (length : Nat)
    (hal : IsAlignment alignment k) :
    miFindEmptyAddressRangeInTree v length alignment =
      some (emptyRange v k ((length+4095)%2^32/4096) t.toList) := by
  obtain ⟨halign,hpos,-,hle⟩ := hal.pages
  have hstart : roundUp (mmLowestUserAddress/4096) (2^k)=alignVpn k 16 := roundUp_eq (by
    have : mmLowestUserAddress/4096=16 := by decide
    omega)
  have hlt := alignVpn_lt k 16
  unfold Odyssey.Mm.miFindEmptyAddressRangeInTree
  simp only [halign,hstart]
  generalize (length+4095)%2^32/4096=n
  rw [mod_eq_of_lt (show alignVpn k 16*4096<2^32 by omega)]
  by_cases h0 : v.numberGenericTableElements=0
  · rw [if_pos h0]
    obtain rfl := h.count_eq_zero.mp h0
    rfl
  · rw [if_neg h0,h.rootNode,lastNode_unpack]
    have hroot : root t≠0 := fun hr =>
      h0 (h.count_eq_zero.mpr (h.zip.focus.root_eq_zero.mp hr))
    obtain ⟨d,B,hlist⟩ := exists_cons_of_ne_nil (ne_nil_of_mem (root_mem hroot))
    have hlen : B.length<v.fuel := by
      rw [VadTable.fuel,h.count,hlist,length_cons]
      omega
    rw [lastNode_left h.zip.focus hroot (by rw [VadTable.fuel,h.count]; omega),hlist,
      headD_cons,emptyRange]
    simp only [bind_eq_bind,bind_some]
    by_cases hgap : alignVpn k 16+n<v.startingVpn d
    · rw [if_pos hgap,if_pos (by omega)]
    · rw [if_neg hgap,if_neg (by omega)]
      exact gapLoop_eq (A := []) h hal hlist hlen

structure GapAt (v : VadTable) (l : List Addr) (k n s : Nat) (A B : List Addr) : Prop where
  split : l=A++B
  aligned : 2^k ∣ s
  low : 1≤ s
  high : s<2^20
  before : ∀ a∈A, v.endingVpn a<s
  behind : ∀ b∈B, s<v.startingVpn b ∧ s+n≤v.startingVpn b
  top : l≠[] → B=[] → s+n≤pastHighestVpn
  bottom : A=[] → s=alignVpn k 16 ∧ ∀ b∈B, s+n<v.startingVpn b

theorem VadTree.gapAt (h : VadTree v t) {previous : Addr} (hk : k<20)
    (hr : emptyRange v k n t.toList=some (previous, base)) :
    ∃ A B s, GapAt v t.toList k n s A B ∧ previous=A.getLastD 0 ∧ base=s*4096 := by
  have hord := h.ordered
  have hrange := h.range
  have hpow : 2^k≤2^19 := Nat.pow_le_pow_right (by decide) (by omega)
  have hlow := le_alignVpn k 16
  have hlt := alignVpn_lt k 16
  cases hl : t.toList with
  | nil =>
    rw [hl] at hr
    obtain ⟨rfl,rfl⟩ := Prod.mk.inj (Option.some.inj hr)
    exact ⟨[],[],alignVpn k 16,⟨rfl,dvd_alignVpn ..,by omega,by omega,by simp,by simp,
      by simp,by simp⟩,rfl,rfl⟩
  | cons a l =>
    rw [hl] at hr hord hrange
    rw [emptyRange] at hr
    by_cases hgap : alignVpn k 16+n<v.startingVpn a
    · rw [if_pos hgap] at hr
      obtain ⟨rfl,rfl⟩ := Prod.mk.inj (Option.some.inj hr)
      have hroom : ∀ b∈a::l, alignVpn k 16+n<v.startingVpn b := by
        intro b hb
        have ha := (hrange a (by simp)).1
        obtain rfl | hb := mem_cons.mp hb
        · exact hgap
        · have := (pairwise_cons.mp hord).1 b hb
          omega
      refine ⟨[],a::l,alignVpn k 16,⟨rfl,dvd_alignVpn ..,by omega,by omega,by simp,
        fun b hb => ?_,by simp,fun _ => ⟨rfl,hroom⟩⟩,rfl,rfl⟩
      have := hroom b hb
      omega
    · rw [if_neg hgap] at hr
      obtain ⟨A,B,hsplit,⟨hlow,hfit⟩,rfl⟩ := firstGap_eq_some hr
      rw [hsplit] at hord hrange
      obtain ⟨-,hB,hAB⟩ := pairwise_append.mp hord
      have hle := le_alignVpn k (v.endingVpn previous+1)
      have hend : gapEnd v B≤2^20 ∧ ∀ b∈B, gapEnd v B≤v.startingVpn b := by
        cases B with
        | nil => exact ⟨show pastHighestVpn≤_ by decide,by simp⟩
        | cons c B =>
          have hc := hrange c (by simp)
          refine ⟨show v.startingVpn c≤_ by omega,fun b hb => ?_⟩
          change v.startingVpn c≤v.startingVpn b
          obtain rfl | hb := mem_cons.mp hb
          · exact le_rfl
          · have := (pairwise_cons.mp (pairwise_cons.mp hB).2).1 b hb
            omega
      refine ⟨A++[previous],B,_,⟨by simp [hsplit],dvd_alignVpn ..,by omega,by omega,
        fun b hb => ?_,fun b hb => ?_,fun _ hnil => ?_,by simp⟩,by simp,rfl⟩
      · obtain hb | hb := mem_append.mp hb
        · have := hAB b hb previous (by simp)
          have := (hrange previous (by simp)).1
          omega
        · rw [mem_singleton.mp hb]
          omega
      · have := hend.2 b hb
        omega
      · subst hnil
        have : gapEnd v []=pastHighestVpn := rfl
        omega

/-- The gap that was found ends below 4 GB, unless there are no VADs. -/
theorem GapAt.le {s : Nat} (g : GapAt v t.toList k n s A B) (h : VadTree v t)
    (hne : t.toList≠[]) : s+n≤2^20 := by
  cases B with
  | nil =>
    have := g.top hne rfl
    have : pastHighestVpn≤2^20 := by decide
    omega
  | cons b B =>
    have := (g.behind b (by simp)).2
    have := h.range b (by simp [g.split])
    omega

end Gap

/-- A process: the table of its address space, and the VADs that have been inserted. -/
structure AddressSpace where
  table : VadTable
  vads : List Addr

def lastVpn (base length : Nat) : Nat := ((base+length-1)%2^32 ||| 4095)/4096

/-- `MiMapViewOfDataSection`, the only caller of the search, refuses views of 2 GB and more. -/
def pastMaximumViewSize : Nat := 0x80000000

/-- What the callers do. A range is inserted after it was found free; a view is placed by
`MiFindEmptyAddressRangeInTree`, with an alignment of `2 ^ k` pages. -/
inductive Action where
  | insert (vad : Addr) (startVpn endVpn : Nat)
  | place (vad : Addr) (length k : Nat)
  | remove (node : Addr)
  | locate (address : BitVec 32)

namespace AddressSpace

def init (mem : MiMem) (root : Addr) (startingVpn endingVpn : Addr → Nat) : AddressSpace where
  table :=
    { balancedRoot := root, mem := update mem root ⟨root,0,0⟩, depthOfTree := 0
      numberGenericTableElements := 0, startingVpn, endingVpn, nodeHint := 0 }
  vads := []

def insertVad (s : AddressSpace) (vad : Addr) (startVpn endVpn : Nat) : Option AddressSpace := do
  let table ← miInsertVad (s.table.newVad vad startVpn endVpn) vad
  some ⟨table,vad::s.vads⟩

def act (s : AddressSpace) : Action → Option AddressSpace
  | .insert vad startVpn endVpn => do
    let conflict ← miCheckForConflictingNode s.table startVpn endVpn
    if conflict≠0 then some s else s.insertVad vad startVpn endVpn
  | .place vad length k => do
    match ← miFindEmptyAddressRangeInTree s.table length (2^k*4096) with
    | none => some s
    | some (_, base) => s.insertVad vad (base/4096) (lastVpn base length)
  | .remove node => do
    let table ← miRemoveNode s.table node
    some ⟨table,s.vads.erase node⟩
  | .locate address => do
    let (table, _) ← miLocateAddress s.table address
    some ⟨table,s.vads⟩

def fresh (s : AddressSpace) (vad : Addr) : Bool :=
  vad≠0 ∧ Aligned vad ∧ vad≠s.table.balancedRoot ∧ vad∉s.vads

/-- The contract of the callers. Page numbers are those of 32-bit addresses, and the range of a
VAD is not empty, as `MiInsertVad` asserts. -/
def legal (s : AddressSpace) : Action → Bool
  | .insert vad startVpn endVpn => s.fresh vad ∧ startVpn≤endVpn ∧ endVpn<2^20
  | .place vad length k => s.fresh vad ∧ 0<length ∧ length<pastMaximumViewSize ∧ k<20
  | .remove node => node∈s.vads
  | .locate _ => true

def run (s : AddressSpace) : List Action → Option AddressSpace
  | [] => some s
  | a::actions => (s.act a).bind fun s' => s'.run actions

def legalRun (s : AddressSpace) : List Action → Bool
  | [] => true
  | a::actions => s.legal a && (s.act a).all fun s' => s'.legalRun actions

structure Tree (s : AddressSpace) (t : BTree Addr) : Prop where
  tree : VadTree s.table t
  vads : s.vads.Perm t.toList

end AddressSpace

section Runs
variable {s : AddressSpace} {t : BTree Addr} {vad : Addr}

theorem AddressSpace.Tree.fresh (h : s.Tree t) (hf : s.fresh vad) : Fresh s.table t vad := by
  obtain ⟨h0,ha,hr,hm⟩ := of_decide_eq_true hf
  exact ⟨h0,ha,hr,fun hmem => hm (h.vads.mem_iff.mpr hmem)⟩

theorem AddressSpace.Tree.insertVad (h : s.Tree t) {startVpn endVpn : Nat}
    (hf : s.fresh vad) (hse : startVpn≤endVpn) (hend : endVpn<2^20)
    (hfree : ∀ b∈t.toList, ¬Meets s.table startVpn endVpn b) :
    ∃ s' t', s.insertVad vad startVpn endVpn=some s' ∧ s'.Tree t' := by
  obtain ⟨v',t',hrun,h',hperm,-⟩ := h.tree.insert (h.fresh hf) hse hend hfree
  refine ⟨⟨v',vad::s.vads⟩,t',?_,h',(h.vads.cons vad).trans hperm.symm⟩
  rw [AddressSpace.insertVad,hrun]
  rfl

/-- The pages of a view that ends below 4 GB are those that the search has found free. -/
theorem lastVpn_eq {first length : Nat} (hpos : 0<length)
    (hle : first+(length+4095)/4096≤2^20) :
    lastVpn (first*4096) length+1=first+(length+4095)/4096 := by
  have hor : lastVpn (first*4096) length=(first*4096+length-1)%2^32/4096 := by
    rw [lastVpn,show 4096=2^12 by decide,or_div_two_pow]
    simp
  omega

theorem AddressSpace.Tree.place (h : s.Tree t) {length k : Nat}
    (hl : s.legal (.place vad length k)) :
    ∃ s' t', s.act (.place vad length k)=some s' ∧ s'.Tree t' := by
  obtain ⟨hf,hpos,hlen,hk⟩ := of_decide_eq_true hl
  rw [pastMaximumViewSize] at hlen
  have hrun := h.tree.miFindEmptyAddressRangeInTree length ⟨rfl,hk⟩
  rw [mod_eq_of_lt (by omega)] at hrun
  generalize hn : (length+4095)/4096=n at hrun
  cases hr : emptyRange s.table k n t.toList with
  | none =>
    refine ⟨s,t,?_,h⟩
    simp [AddressSpace.act,hrun,hr]
  | some r =>
    obtain ⟨A,B,first,hgap,-,hbase⟩ := h.tree.gapAt hk hr
    have hdiv : r.2/4096=first := by rw [hbase,Nat.mul_div_cancel _ (by decide)]
    have hend : first+n≤2^20 := by
      by_cases hne : t.toList=[]
      · have hpow : 2^k ∣ 2^19 := pow_dvd_pow 2 (by omega)
        have := (hgap.bottom (append_eq_nil_iff.mp (hgap.split.symm.trans hne)).1).1
        have := alignVpn_le (x := 16) hpow (by decide)
        omega
      · exact hgap.le h.tree hne
    have hlast := lastVpn_eq hpos (hn ▸ hend)
    have hle : first≤lastVpn (first*4096) length := by omega
    obtain ⟨s',t',hins,h'⟩ := h.insertVad hf hle (by omega) fun b hb hm => by
      have hm1 := hm.1
      have hm2 := hm.2
      rw [hgap.split] at hb
      obtain hb | hb := mem_append.mp hb
      · have := hgap.before b hb
        omega
      · have := hgap.behind b hb
        omega
    exact ⟨s',t',by simpa [AddressSpace.act,hrun,hr,hdiv,hbase] using hins,h'⟩

theorem AddressSpace.Tree.act (h : s.Tree t) {a : Action} (hl : s.legal a) :
    ∃ s' t', s.act a=some s' ∧ s'.Tree t' := by
  cases a with
  | insert vad startVpn endVpn =>
    obtain ⟨hf,hse,hend⟩ := of_decide_eq_true hl
    obtain ⟨c,hrun,-,hnone⟩ := h.tree.miCheckForConflictingNode startVpn endVpn
    by_cases hc : c=0
    · obtain ⟨s',t',hins,h'⟩ := h.insertVad hf hse hend (hnone hc)
      exact ⟨s',t',by simpa [AddressSpace.act,hrun,hc] using hins,h'⟩
    · refine ⟨s,t,?_,h⟩
      simp only [AddressSpace.act,hrun,bind_eq_bind,bind_some]
      exact if_pos hc
  | place vad length k => exact h.place hl
  | remove node =>
    have hn : node∈t.toList := h.vads.mem_iff.mp (of_decide_eq_true hl)
    obtain ⟨v',t',hrun,h',hlist,-⟩ := h.tree.remove hn
    refine ⟨⟨v',s.vads.erase node⟩,t',by simp [AddressSpace.act,hrun],h',?_⟩
    rw [hlist]
    exact h.vads.erase node
  | locate address =>
    obtain ⟨v',a,hrun,h',-⟩ := h.tree.miLocateAddress address
    exact ⟨⟨v',s.vads⟩,t,by simp [AddressSpace.act,hrun],h',h.vads⟩

theorem AddressSpace.Tree.run (h : s.Tree t) {actions : List Action} (hl : s.legalRun actions) :
    ∃ s' t', s.run actions=some s' ∧ s'.Tree t' := by
  induction actions generalizing s t with
  | nil => exact ⟨s,t,rfl,h⟩
  | cons a actions ih =>
    obtain ⟨hl1,hl2⟩ := Bool.and_eq_true_iff.mp hl
    obtain ⟨s₁,t₁,hact,h₁⟩ := h.act hl1
    rw [hact] at hl2
    obtain ⟨s',t',hrun,h'⟩ := ih h₁ (by simpa using hl2)
    exact ⟨s',t',by rw [AddressSpace.run,hact]; exact hrun,h'⟩

theorem AddressSpace.tree_init (mem : MiMem) {root : Addr} (h0 : root≠0) (ha : Aligned root)
    (startingVpn endingVpn : Addr → Nat) :
    (AddressSpace.init mem root startingVpn endingVpn).Tree .nil := by
  have hm : update mem root ⟨root,0,0⟩ root=⟨root,0,0⟩ := update_self ..
  have hstep := inStep_empty h0 ha hm (0 : BitVec 5) (0 : BitVec 24) (0 : BitVec 5) (0 : BitVec 24)
  refine ⟨⟨hstep.zip,trivial,by simp [AlignedTree,BTree.toList],ha,List.Pairwise.nil,
    by simp [BTree.toList],rfl,by simp [AddressSpace.init]⟩,List.Perm.refl _⟩

theorem AddressSpace.Tree.nodeHint_mem (h : s.Tree t) (hne : s.vads≠[]) :
    s.table.nodeHint∈s.vads := by
  have hnil : t ≠ .nil := by
    intro hnil
    subst hnil
    exact hne (List.Perm.eq_nil h.vads)
  have hhint := h.tree.hint
  rw [if_neg hnil] at hhint
  exact h.vads.mem_iff.mpr hhint

theorem AddressSpace.Tree.locate (h : s.Tree t) (address : BitVec 32) :
    ∃ v' a, miLocateAddress s.table address=some (v', a) ∧ (a≠0 → a∈s.vads) ∧
      ∀ b∈s.vads, (s.table.startingVpn b≤address.toNat/4096 ∧
        address.toNat/4096≤ s.table.endingVpn b ↔ b=a) := by
  obtain ⟨v',a,hrun,-,-,-,hfound,hnone⟩ := h.tree.miLocateAddress address
  refine ⟨v',a,hrun,fun ha => h.vads.mem_iff.mpr (hfound ha).1,fun b hb => ?_⟩
  have hbt : b∈t.toList := h.vads.mem_iff.mp hb
  by_cases ha : a=0
  · have hb0 : b≠0 := rep_ne_zero h.tree.zip.focus b hbt
    constructor
    · intro hin
      exact absurd hin (hnone ha b hbt)
    · intro hba
      exact absurd (hba.trans ha) hb0
  · obtain ⟨hat,hin⟩ := hfound ha
    constructor
    · intro hinb
      by_contra hne
      have := h.tree.apart hbt hat hne
      omega
    · intro hba
      rw [hba]
      exact hin

theorem AddressSpace.Tree.conflict (h : s.Tree t) (startVpn endVpn : Nat) :
    ∃ a, miCheckForConflictingNode s.table startVpn endVpn=some a ∧
      (a=0 ↔ ∀ b∈s.vads, ¬Meets s.table startVpn endVpn b) := by
  obtain ⟨a,hrun,hfound,hnone⟩ := h.tree.miCheckForConflictingNode startVpn endVpn
  refine ⟨a,hrun,fun ha b hb => hnone ha b (h.vads.mem_iff.mp hb),fun hfree => ?_⟩
  by_contra ha
  obtain ⟨hat,hm⟩ := hfound ha
  exact hfree a (h.vads.mem_iff.mpr hat) hm

/-- Every run of inserts, placements, removals and lookups that keeps the contract goes
through. In the process it leaves, the ranges of the VADs are disjoint and in the order of the
tree, the hint is a VAD, an address is located in exactly the VAD that has it, and a range of
pages is in conflict exactly when it meets a VAD. -/
theorem vad_tree_exact (mem : MiMem) {root : Addr} (h0 : root≠0) (ha : Aligned root)
    (startingVpn endingVpn : Addr → Nat) {actions : List Action}
    (hl : (AddressSpace.init mem root startingVpn endingVpn).legalRun actions) :
    ∃ s t, (AddressSpace.init mem root startingVpn endingVpn).run actions=some s ∧
      s.Tree t ∧
      t.toList.Pairwise (fun a b => s.table.endingVpn a<s.table.startingVpn b) ∧
      (∀ a∈s.vads, s.table.startingVpn a≤ s.table.endingVpn a) ∧
      (s.vads≠[] → s.table.nodeHint∈s.vads) ∧
      (∀ address : BitVec 32, ∃ v' a, miLocateAddress s.table address=some (v', a) ∧
        (a≠0 → a∈s.vads) ∧
        ∀ b∈s.vads, (s.table.startingVpn b≤address.toNat/4096 ∧
          address.toNat/4096≤ s.table.endingVpn b ↔ b=a)) ∧
      ∀ startVpn endVpn, ∃ a, miCheckForConflictingNode s.table startVpn endVpn=some a ∧
        (a=0 ↔ ∀ b∈s.vads, ¬Meets s.table startVpn endVpn b) := by
  obtain ⟨s,t,hrun,h⟩ :=
    (AddressSpace.tree_init mem h0 ha startingVpn endingVpn).run hl
  exact ⟨s,t,hrun,h,h.tree.ordered,
    fun a ha => (h.tree.range a (h.vads.mem_iff.mp ha)).1,h.nodeHint_mem,h.locate,h.conflict⟩

def someActions : List Action :=
  [.insert 0x2000 16 31,.insert 0x3000 40 40,.insert 0x4000 30 50,.place 0x5000 0x3000 4,
    .locate 0x28000,.remove 0x3000]

def someProcess : AddressSpace :=
  .init (fun _ => ⟨0,0,0⟩) 0x1000 (fun _ => 0) fun _ => 0

theorem vad_tree_exact_someActions : ∃ s t, someProcess.run someActions=some s ∧ s.Tree t := by
  have hl : someProcess.legalRun someActions := by decide +kernel
  obtain ⟨s,t,hrun,h,-⟩ := vad_tree_exact _ (by decide) (by decide) _ _ hl
  exact ⟨s,t,hrun,h⟩

end Runs

end Odyssey.Mm
