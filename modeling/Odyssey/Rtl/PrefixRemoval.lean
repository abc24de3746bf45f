import Odyssey.Rtl.PrefixInvariant

/-! The removal of an entry from a prefix table: the search on the ring of roots, and what the table
holds afterwards. -/
namespace Odyssey.Rtl.PrefixTable
open TreeZipper SplayLinks List PrefixTree

section Roots
variable {roots R S : List Nat} {r : Nat} {ref : Option Nat} {fuel : Nat}

theorem nextPrefixTree_getLast (h : (R++S).Nodup) : nextPrefixTree (R++S) R.getLast?=S.head? := by
  cases R using List.reverseRecOn with
  | nil => rfl
  | append_singleton R q =>
    have hq : q∉R := by
      rw [append_assoc] at h
      exact fun hmem => (nodup_append.mp h).2.2 q hmem q (by simp) rfl
    have hidx : (R++[q]++S).idxOf q=R.length := by
      rw [append_assoc,idxOf_append_of_notMem hq]
      simp
    rw [getLast?_concat,nextPrefixTree,hidx]
    simp

/-- One entry only is in front of a root. -/
theorem eq_getLast_of_nextPrefixTree (h : (R++r::S).Nodup)
    (hnext : nextPrefixTree (R++r::S) ref=some r) : ref=R.getLast? := by
  have hr : r∉R := fun hmem => (nodup_append.mp h).2.2 r hmem r (by simp) rfl
  cases ref with
  | none =>
    cases R with
    | nil => rfl
    | cons q R =>
      rw [nextPrefixTree,cons_append,head?_cons,Option.some_inj] at hnext
      exact absurd hnext (fun heq => hr (by simp [heq]))
  | some q =>
    have hmem : q∈R++r::S := by
      by_contra hnot
      have hlen := idxOf_eq_length hnot
      rw [nextPrefixTree,drop_eq_nil_of_le (by omega)] at hnext
      simp at hnext
    obtain ⟨R',S',hsplit⟩ := append_of_mem hmem
    have hnext' := nextPrefixTree_getLast (R := R'++[q]) (by simpa [hsplit] using h)
    rw [getLast?_concat,append_assoc,singleton_append,← hsplit,hnext] at hnext'
    obtain ⟨S'',rfl⟩ := head?_eq_some_iff.mp hnext'.symm
    have hR : R'++[q]=R := by
      have hsplit' : R++r::S=(R'++[q])++r::S'' := by simpa using hsplit
      have hnot : r∉S := (nodup_cons.mp (nodup_append.mp h).2.1).1
      exact ((append_cons_inj_of_notMem hr hnot).mp hsplit').1.symm
    rw [← hR,getLast?_concat]

theorem refEntry_sound {entry : Option Nat} {start : Option Nat}
    (h : refEntry roots entry fuel start=some ref) : nextPrefixTree roots ref=entry := by
  induction fuel generalizing start with
  | zero => simp [refEntry] at h
  | succ fuel ih =>
    rw [refEntry] at h
    split at h
    next hnext =>
      cases h
      exact hnext
    next => exact ih h

/-- The walk from the root at the end of `R` comes to the one in front of `r`. -/
theorem exists_refEntry_front (h : (R++S++r::roots).Nodup) :
    ∃ fuel ref, refEntry (R++S++r::roots) (some r) fuel R.getLast?=some ref := by
  induction S generalizing R with
  | nil =>
    rw [append_nil] at h ⊢
    have hnext : nextPrefixTree (R++r::roots) R.getLast?=some r := nextPrefixTree_getLast h
    exact ⟨1,R.getLast?,by rw [refEntry,if_pos hnext]⟩
  | cons b S ih =>
    have hnext : nextPrefixTree (R++b::S++r::roots) R.getLast?=some b := by
      rw [append_assoc] at h ⊢
      exact nextPrefixTree_getLast h
    obtain ⟨fuel,ref,hwalk⟩ := ih (R := R++[b]) (by simpa using h)
    have hb : b≠r := by
      intro hbr
      rw [hbr] at h
      simp [nodup_append] at h
    refine ⟨fuel+1,ref,?_⟩
    rw [refEntry,hnext,if_neg (by simpa using hb)]
    simpa using hwalk

/-- The walk from behind `r` comes to the table. -/
theorem exists_refEntry_back (h : (R++S).Nodup) (hr : r∉S)
    (htable : ∃ fuel ref, refEntry (R++S) (some r) fuel none=some ref) :
    ∃ fuel ref, refEntry (R++S) (some r) fuel S.head?=some ref := by
  induction S generalizing R with
  | nil => exact htable
  | cons b S ih =>
    have hassoc : R++b::S=R++[b]++S := by simp
    have hnext : nextPrefixTree (R++b::S) (some b)=S.head? := by
      have := nextPrefixTree_getLast (R := R++[b]) (by simpa using h)
      simpa using this
    have hS : r∉S := fun hmem => hr (by simp [hmem])
    obtain ⟨fuel,ref,hwalk⟩ := ih (R := R++[b]) (by simpa using h) hS (by simpa using htable)
    refine ⟨fuel+1,ref,?_⟩
    rw [head?_cons,refEntry,hnext,if_neg]
    · rw [hassoc]
      exact hwalk
    · exact fun heq => hS (mem_of_mem_head? heq)

/-- The search for a root that is on the ring ends. -/
theorem exists_refEntry (h : (R++r::S).Nodup) :
    ∃ fuel, refEntry (R++r::S) (some r) fuel (nextPrefixTree (R++r::S) (some r)) =
      some R.getLast? := by
  have hassoc : R++r::S=R++[r]++S := by simp
  have hstart : nextPrefixTree (R++r::S) (some r)=S.head? := by
    have := nextPrefixTree_getLast (R := R++[r]) (by simpa using h)
    simpa using this
  have hr : r∉S := (nodup_cons.mp (nodup_append.mp h).2.1).1
  have htable : ∃ fuel ref, refEntry (R++[r]++S) (some r) fuel none=some ref := by
    have hfront : ([]++R++r::S).Nodup := by simpa using h
    simpa using exists_refEntry_front hfront
  obtain ⟨fuel,ref,hwalk⟩ := exists_refEntry_back (hassoc ▸ h) hr htable
  rw [← hassoc] at hwalk
  refine ⟨fuel,?_⟩
  rw [hstart,hwalk,eq_getLast_of_nextPrefixTree h (refEntry_sound hwalk)]

/-- The search for an entry that no root links to does not end. -/
theorem refEntry_eq_none (hr : r∉roots) (start : Option Nat) :
    refEntry roots (some r) fuel start=none := by
  induction fuel generalizing start with
  | zero => rfl
  | succ fuel ih =>
    rw [refEntry,if_neg,ih]
    intro hnext
    cases start with
    | none => exact hr (mem_of_mem_head? hnext)
    | some q => exact hr (mem_of_mem_drop (mem_of_mem_head? hnext))

end Roots

inductive RingRemoved (e : Entry) : Node → Node → Prop
  | variant (o : Entry) (V W : List Entry) : RingRemoved e ⟨o,V++e::W⟩ ⟨o,V++W⟩
  | owner (v : Entry) (V : List Entry) : RingRemoved e ⟨e,V++[v]⟩ ⟨v,V⟩

inductive Removed (e : Entry) : List Node → List Node → Prop
  | ring {a b : Node} (h : RingRemoved e a b) (X Y : List Node) : Removed e (X++a::Y) (X++b::Y)
  | node (X Y : List Node) : Removed e (X++⟨e,[]⟩::Y) (X++Y)

def TableRemoved (e : Entry) (c c' : List TreeContent) : Prop :=
  ∃ A k l l' B, c=A++(k, l)::B ∧ Removed e l l' ∧
    (l'≠[] ∧ c'=A++(k, l')::B ∨ l'=[] ∧ c'=A++B)

variable {u : UpcaseTable} {e : Entry} {trees : List PrefixTree} {c c' : List TreeContent}
  {a b : Node} {l l' : List Node}

theorem RingRemoved.perm (h : RingRemoved e a b) : a.entries.Perm (e::b.entries) := by
  cases h with
  | variant o V W =>
    exact (perm_middle.cons o).trans (List.Perm.swap e o _)
  | owner v V =>
    exact (perm_append_singleton v V).cons e

theorem Removed.perm (h : Removed e l l') :
    (l.flatMap Node.entries).Perm (e::l'.flatMap Node.entries) := by
  cases h with
  | ring h X Y =>
    simp only [flatMap_append,flatMap_cons]
    exact ((h.perm.append_right _).append_left _).trans perm_middle
  | node X Y =>
    simp only [flatMap_append,flatMap_cons,Node.entries]
    exact perm_middle

theorem TableRemoved.perm (h : TableRemoved e c c') : (entriesOf c).Perm (e::entriesOf c') := by
  obtain ⟨A,k,l,l',B,rfl,hrem,⟨-,rfl⟩ | ⟨rfl,rfl⟩⟩ := h
  · simp only [entriesOf_append,entriesOf_cons]
    exact ((hrem.perm.append_right _).append_left _).trans perm_middle
  · have hperm := hrem.perm
    simp only [entriesOf_append,entriesOf_cons,flatMap_nil] at hperm ⊢
    exact ((hperm.append_right _).append_left _).trans perm_middle

/-- The entry that takes the place of another one has the same key. -/
theorem RingRemoved.key_eq {n : Nat} (h : RingRemoved e a b) (ha : NodeOk u n a) :
    key u b.owner.name=key u a.owner.name := by
  cases h with
  | variant o V W => rfl
  | owner v V => exact ha.ring v (by simp)

theorem RingRemoved.nodeOk {n : Nat} (h : RingRemoved e a b) (ha : NodeOk u n a) :
    NodeOk u n b where
  name := by
    rw [Ne,← key_eq_nil,h.key_eq ha,key_eq_nil]
    exact ha.name
  count := by
    rw [computeUnicodeNameLength_eq,h.key_eq ha,← computeUnicodeNameLength_eq]
    exact ha.count
  ring := by
    intro e' he'
    rw [h.key_eq ha]
    refine ha.ring e' ?_
    cases h with
    | variant o V W =>
      simp only [mem_append,mem_cons] at he' ⊢
      tauto
    | owner v V => simp [he']
  distinct := by
    have hnd := ha.distinct
    rw [(h.perm.map Entry.name).nodup_iff] at hnd
    exact (nodup_cons.mp hnd).2

theorem Removed.treeOk {k : Nat} (h : Removed e l l') (hl : TreeOk u (k, l))
    (hne : l'≠[]) : TreeOk u (k, l') := by
  cases h with
  | @ring a b h X Y =>
    have ha : NodeOk u k a := hl.node a (by simp)
    refine ⟨hne,fun c hc => ?_,?_⟩
    · obtain hc | rfl | hc : c∈X ∨ c=b ∨ c∈Y := by simpa using hc
      · exact hl.node c (by simp [hc])
      · exact h.nodeOk ha
      · exact hl.node c (by simp [hc])
    · have hs := hl.sorted
      simp only [Sorted,pairwise_append,pairwise_cons,mem_cons,forall_eq_or_imp,h.key_eq ha] at hs ⊢
      exact hs
  | node X Y =>
    have hsub : (X++Y).Sublist (X++⟨e,[]⟩::Y) :=
      (sublist_cons_self _ Y).append_left X
    exact ⟨hne,fun c hc => hl.node c (hsub.subset hc),hl.sorted.sublist hsub⟩

theorem TableRemoved.inv (h : TableRemoved e c c') (hc : Inv u c) : Inv u c' := by
  have hids : ((entriesOf c').map Entry.id).Nodup := by
    have hnd := hc.ids
    rw [(h.perm.map Entry.id).nodup_iff] at hnd
    exact (nodup_cons.mp hnd).2
  obtain ⟨A,k,l,l',B,rfl,hrem,⟨hne,rfl⟩ | ⟨-,rfl⟩⟩ := h
  · exact hc.replace rfl (hrem.treeOk (hc.tree _ (by simp)) hne) hids
  · exact hc.sublist ((sublist_cons_self _ B).append_left A)

section Position
variable {t : Table} {tree : PrefixTree} {n : Focus Node} {A B : List PrefixTree} {r : Nat}

theorem content_split (ht : t.trees=A++tree::B) (hn : n.tree=tree.links) :
    t.content=A.map content ++
      (tree.nameLength, n.front++n.label::n.back)::B.map content := by
  rw [Table.content,ht,map_append,map_cons,content,← hn,Focus.toList_tree]

theorem Inv.eq_of_id (h : Inv u t.content) {e e' : Entry} (he : e∈t.entries)
    (he' : e'∈t.entries) (hid : e.id=e'.id) : e=e' := by
  rw [t.entries_eq] at he he'
  exact inj_on_of_nodup_map h.ids he he' hid

theorem mem_entries_of_label (ht : t.trees=A++tree::B) (hn : n.tree=tree.links)
    (he : e∈n.label.entries) : e∈t.entries := by
  rw [t.entries_eq,content_split ht hn]
  simp [he]

/-- The place of an entry of the table. -/
theorem Inv.position (h : Inv u t.content) (he : e∈t.entries) :
    ∃ A tree B n, t.position e.id=some (tree, n) ∧ t.trees=A++tree::B ∧
      locate (fun a => a.entries.any (·.id=e.id)) tree.links []=some n ∧
      n.tree=tree.links ∧ e∈n.label.entries := by
  cases hpos : t.position e.id with
  | none =>
    obtain ⟨tree,htree,he⟩ := mem_flatMap.mp he
    obtain ⟨a,ha,he⟩ := mem_flatMap.mp he
    have hnone := (findSome?_eq_none_iff.mp hpos) tree htree
    rw [Option.map_eq_none_iff,locate_eq_none] at hnone
    have hfalse := hnone a ha
    rw [any_eq_false] at hfalse
    exact absurd (by simp) (hfalse e he)
  | some pos =>
    obtain ⟨A,tree,B,ht,hloc,-⟩ := findSome?_eq_some_iff.mp hpos
    obtain ⟨n,hnode,rfl⟩ := Option.map_eq_some_iff.mp hloc
    obtain ⟨hn,hany⟩ := locate_sound hnode
    obtain ⟨e',he',hid⟩ := any_eq_true.mp hany
    refine ⟨A,tree,B,n,rfl,ht,hnode,hn,?_⟩
    have heq := h.eq_of_id (mem_entries_of_label ht hn he') he (by simpa using hid)
    exact heq ▸ he'

theorem Inv.node_ids (h : Inv u t.content) (ht : t.trees=A++tree::B)
    (hn : n.tree=tree.links) : (n.label.entries.map Entry.id).Nodup := by
  have hids := h.ids
  rw [content_split ht hn] at hids
  refine hids.sublist (List.Sublist.map Entry.id ?_)
  simp only [entriesOf_append,entriesOf_cons,flatMap_append,flatMap_cons,append_assoc]
  exact (sublist_append_left _ _).trans ((sublist_append_right _ _).trans
    (sublist_append_right _ _))

/-- Every tree has a root. -/
theorem Inv.exists_root (h : Inv u t.content) (tree : PrefixTree) (htree : tree∈t.trees) :
    ∃ r, tree.root=some r ∧ r∈tree.entries.map Entry.id := by
  have hne := (h.tree tree.content (mem_map_of_mem htree)).nodes
  rw [content] at hne
  cases hlinks : tree.links with
  | nil => simp [hlinks] at hne
  | node l a r =>
    refine ⟨a.owner.id,by simp [root,hlinks,BinTree.root],?_⟩
    simp [entries,hlinks,Node.entries]

theorem mem_entries_of_root
    (hr : r∈trees.filterMap root) :
    r∈(trees.flatMap entries).map Entry.id := by
  obtain ⟨tree,htree,hroot⟩ := mem_filterMap.mp hr
  obtain ⟨a,ha,rfl⟩ := Option.map_eq_some_iff.mp hroot
  refine mem_map_of_mem (mem_flatMap.mpr ⟨tree,htree,?_⟩)
  refine mem_flatMap.mpr ⟨a,?_,by simp [Node.entries]⟩
  cases hlinks : tree.links with
  | nil => simp [hlinks,BinTree.root] at ha
  | node l b r =>
    rw [hlinks,BinTree.root,Option.some_inj] at ha
    simp [ha]

theorem nodup_roots
    (h : ((trees.flatMap entries).map Entry.id).Nodup) :
    (trees.filterMap root).Nodup := by
  induction trees with
  | nil => simp
  | cons tree rest ih =>
    rw [flatMap_cons,map_append,nodup_append] at h
    rw [filterMap_cons]
    split
    next => exact ih h.2.1
    next r hr =>
      refine nodup_cons.mpr ⟨fun hmem => ?_,ih h.2.1⟩
      have hmem' : r∈[tree].filterMap root := by simp [hr]
      have hself := mem_entries_of_root hmem'
      rw [flatMap_singleton] at hself
      exact h.2.2 r hself r (mem_entries_of_root hmem) rfl

theorem Inv.nodup_roots (h : Inv u t.content) : t.roots.Nodup := by
  refine PrefixTable.nodup_roots ?_
  have hids := h.ids
  rw [← t.entries_eq] at hids
  exact hids

theorem roots_split (ht : t.trees=A++tree::B) (hr : tree.root=some r) :
    t.roots=A.filterMap root++r::B.filterMap root := by
  rw [Table.roots,ht,filterMap_append,filterMap_cons_some hr]

/-- The tree behind the one that the search has found is exchanged. -/
theorem Inv.relink_eq (h : Inv u t.content) (ht : t.trees=A++tree::B)
    (hr : tree.root=some r) (new : List PrefixTree) :
    relink t.trees new (A.filterMap root).getLast?=A++new++B := by
  cases A using List.reverseRecOn with
  | nil => simp [relink,ht]
  | append_singleton A T =>
    obtain ⟨q,hq,-⟩ := h.exists_root T (by simp [ht])
    have hlast : ((A++[T]).filterMap root).getLast?=some q := by
      rw [filterMap_append,filterMap_cons_some hq]
      simp
    have hA : ∀ x∈A, x.root≠some q := by
      intro x hx hxq
      have hnd := h.nodup_roots
      rw [roots_split ht hr,filterMap_append,filterMap_cons_some hq] at hnd
      rw [append_assoc,nodup_append] at hnd
      exact hnd.2.2 q (mem_filterMap.mpr ⟨x,hx,hxq⟩) q (by simp) rfl
    have hfront : t.trees.takeWhile (fun x => x.root≠some q)=A := by
      rw [ht,append_assoc,takeWhile_append_of_pos (by simpa using hA)]
      simp [hq]
    have hback : t.trees.dropWhile (fun x => x.root≠some q)=T::tree::B := by
      rw [ht,append_assoc,dropWhile_append_of_pos (by simpa using hA)]
      simp [hq]
    rw [hlast,relink]
    simp only [hfront,hback]
    simp

theorem Inv.setLinks_eq (h : Inv u t.content) (ht : t.trees=A++tree::B) (links : BinTree Node) :
    setLinks t.trees tree.nameLength links=A++⟨tree.nameLength,links⟩::B := by
  have hd := h.descending
  rw [Table.content,ht,map_append,map_cons,pairwise_append,pairwise_cons] at hd
  have hA : ∀ x∈A, x.nameLength≠tree.nameLength := fun x hx =>
    (hd.2.2 x.content (mem_map_of_mem hx) tree.content (by simp)).ne'
  have hB : ∀ x∈B, x.nameLength≠tree.nameLength := fun x hx =>
    (hd.2.1.1 x.content (mem_map_of_mem hx)).ne
  have hkeep : ∀ l : List PrefixTree, (∀ x∈l, x.nameLength≠tree.nameLength) →
      l.map (fun x => if x.nameLength=tree.nameLength then ⟨tree.nameLength,links⟩ else x)=l := by
    intro l hl
    conv => rhs; rw [← map_id l]
    exact map_congr_left fun x hx => if_neg (hl x hx)
  rw [setLinks,ht,map_append,map_cons,hkeep A hA,hkeep B hB,if_pos rfl]

end Position

/-- The entry stands at the root of a tree and is not alone on its ring. -/
def HeadsRootRing (t : Table) (e : Entry) : Prop :=
  ∃ tree∈t.trees, ∃ a, tree.links.root=some a ∧ a.owner=e ∧ a.variants≠[]

section Remove
variable {t t' : Table} {tree : PrefixTree} {n : Focus Node} {A B : List PrefixTree} {fuel : Nat}
  {v : Entry}

theorem Inv.tree_unique (h : Inv u t.content) {tree' : PrefixTree} (htree : tree∈t.trees)
    (htree' : tree'∈t.trees) (he : e∈tree.entries) (he' : e∈tree'.entries) :
    tree=tree' := by
  have hnd : t.entries.Nodup := by
    have hids := h.ids
    rw [← t.entries_eq] at hids
    exact hids.of_map
  have hdisjoint := (nodup_flatMap.mp hnd).2
  have hsymm : Std.Symm (Function.onFun List.Disjoint entries) :=
    ⟨fun _ _ hd => List.Disjoint.symm hd⟩
  by_contra hne
  exact hdisjoint.forall htree htree' hne he he'

theorem mem_entries_of_links_root (h : tree.links.root=some a) : ∀ e∈a.entries, e∈tree.entries := by
  intro e he
  cases hlinks : tree.links with
  | nil => simp [hlinks,BinTree.root] at h
  | node l b r =>
    rw [hlinks,BinTree.root,Option.some_inj] at h
    simp [entries,hlinks,h,he]

/-- The entry put in at the root of a tree is not on the ring of roots. -/
theorem Inv.notMem_roots (h : Inv u t.content) (htree : tree∈t.trees)
    (hroot : tree.links.root=some a) (hids : (a.entries.map Entry.id).Nodup)
    (hv : v∈a.variants) : v.id∉t.roots := by
  intro hmem
  obtain ⟨tree',htree',hr⟩ := mem_filterMap.mp hmem
  obtain ⟨b,hb,hid⟩ := Option.map_eq_some_iff.mp hr
  have hvt : v∈tree.entries := mem_entries_of_links_root hroot v (by simp [Node.entries,hv])
  have hbt : b.owner∈tree'.entries :=
    mem_entries_of_links_root hb b.owner (by simp [Node.entries])
  have heq : b.owner=v := h.eq_of_id (mem_flatMap.mpr ⟨tree',htree',hbt⟩)
    (mem_flatMap.mpr ⟨tree,htree,hvt⟩) hid
  have hsame := h.tree_unique htree htree' hvt (heq ▸ hbt)
  rw [← hsame,hroot,Option.some_inj] at hb
  rw [Node.entries,map_cons,nodup_cons] at hids
  exact hids.1 (mem_map.mpr ⟨v,hv,by rw [hb,heq]⟩)

theorem removeFromRing_root (h : Inv u t.content) (htree : tree∈t.trees)
    (hn : n.tree=tree.links) (hids : (n.label.entries.map Entry.id).Nodup) (hpath : n.path=[])
    (hv : v∈n.label.variants) (id : Nat) :
    removeFromRing fuel t tree n id v=none := by
  have hroot : tree.links.root=some n.label := by
    rw [← hn,Focus.tree,hpath]
    rfl
  simp only [removeFromRing,hpath]
  rw [refEntry_eq_none (h.notMem_roots htree hroot hids hv),Option.map_none]

section
variable (h : Inv u t.content) (ht : t.trees=A++tree::B)
include h ht

theorem removeFromRing_child (hpath : n.path≠[]) (id : Nat) (v : Entry) :
    removeFromRing fuel t tree n id v=some (A++⟨tree.nameLength,
      plug (.node n.left ⟨v,n.label.variants.dropLast⟩ n.right) n.path⟩::B) := by
  rw [removeFromRing]
  split
  next hnil => exact absurd hnil hpath
  next => rw [h.setLinks_eq ht]

/-- What is left of the tree takes its place, if anything is. -/
theorem removeNode_spec
    (hremove : removeNode fuel t tree n=some trees) :
    (rtlDelete n ≠ .nil ∧ trees=A++⟨tree.nameLength,rtlDelete n⟩::B) ∨
      (rtlDelete n = .nil ∧ trees=A++B) := by
  obtain ⟨r,hr,-⟩ := h.exists_root tree (by simp [ht])
  have hfound : ∀ new, (refEntry t.roots tree.root fuel (nextPrefixTree t.roots tree.root)).map
      (relink t.trees new)=some trees → trees=A++new++B := by
    intro new hnew
    obtain ⟨ref,href,rfl⟩ := Option.map_eq_some_iff.mp hnew
    have hsplit := roots_split ht hr
    have hnd := h.nodup_roots
    rw [hr] at href
    have hnext := refEntry_sound href
    rw [hsplit] at hnd hnext
    rw [eq_getLast_of_nextPrefixTree hnd hnext]
    exact h.relink_eq ht hr new
  rw [removeNode] at hremove
  split at hremove
  next hnil => exact .inr ⟨hnil,by simpa using hfound _ hremove⟩
  next hnil =>
    refine .inl ⟨hnil,?_⟩
    split at hremove
    next => simpa using hfound _ hremove
    next =>
      rw [h.setLinks_eq ht] at hremove
      exact (Option.some.inj hremove).symm

theorem exists_removeNode : ∃ fuel trees, removeNode fuel t tree n=some trees := by
  obtain ⟨r,hr,-⟩ := h.exists_root tree (by simp [ht])
  have hnd := h.nodup_roots
  rw [roots_split ht hr] at hnd
  obtain ⟨fuel,hfuel⟩ := exists_refEntry hnd
  rw [← roots_split ht hr,← hr] at hfuel
  refine ⟨fuel,?_⟩
  simp only [removeNode,hfuel,Option.map_some]
  split
  · exact ⟨_,rfl⟩
  · split
    · exact ⟨_,rfl⟩
    · exact ⟨_,rfl⟩

end

/-- The entry of a node that has none beside it. -/
theorem Removed.of_node (hlabel : n.label=⟨e,[]⟩) :
    Removed e (n.front++n.label::n.back) (rtlDelete n).toList := by
  rw [toList_rtlDelete,hlabel]
  exact .node n.front n.back

section
variable (h : Inv u t.content) (he : e∈t.entries)
include h he

/-- What a removal that ends leaves in the table. -/
theorem Inv.tableRemoved (hremove : rtlRemoveUnicodePrefix fuel t e.id=some t') :
    TableRemoved e t.content t'.content := by
  obtain ⟨A,tree,B,n,hpos,ht,-,hn,hmem⟩ := h.position he
  have hids := h.node_ids ht hn
  have hcontent := content_split ht hn
  rw [rtlRemoveUnicodePrefix,hpos] at hremove
  obtain ⟨trees,htrees,rfl⟩ := Option.map_eq_some_iff.mp hremove
  -- the ring of the node loses the entry
  have hring : ∀ b, RingRemoved e n.label b →
      trees=A++⟨tree.nameLength,plug (.node n.left b n.right) n.path⟩::B →
        TableRemoved e t.content (Table.content ⟨trees,none⟩) := by
    intro b hb hset
    refine ⟨_,_,_,_,_,hcontent,.ring hb n.front n.back,.inl ⟨by simp,?_⟩⟩
    simp [Table.content,hset,content,Focus.toList_relabel]
  split at htrees
  next hid =>
    have hvar : e∈n.label.variants := by
      cases mem_cons.mp hmem with
      | inl heq => exact absurd (by rw [heq]) hid
      | inr hvar => exact hvar
    obtain ⟨V,W,hVW⟩ := append_of_mem hvar
    have hfilter : n.label.variants.filter (fun x => x.id≠e.id)=V++W := by
      rw [Node.entries,hVW] at hids
      simp only [map_cons,map_append,nodup_cons,nodup_append] at hids
      obtain ⟨-,-,⟨hW,-⟩,hV⟩ := hids
      rw [hVW,filter_append,filter_cons_of_neg (by simp)]
      congr 1
      · refine filter_eq_self.mpr fun x hx => ?_
        simpa using hV x.id (mem_map_of_mem hx) e.id (by simp)
      · refine filter_eq_self.mpr fun x hx => ?_
        have hx' : x.id∈W.map Entry.id := mem_map_of_mem hx
        simpa using ne_of_mem_of_not_mem hx' hW
    rw [h.setLinks_eq ht,hfilter] at htrees
    refine hring ⟨n.label.owner,V++W⟩ ?_ (Option.some.inj htrees).symm
    have hlabel : n.label=⟨n.label.owner,V++e::W⟩ := by rw [← hVW]
    rw [hlabel]
    exact .variant _ V W
  next hid =>
    have howner : n.label.owner=e :=
      h.eq_of_id (mem_entries_of_label ht hn (by simp [Node.entries])) he (not_not.mp hid)
    split at htrees
    next v hv =>
      have hvar : n.label.variants=n.label.variants.dropLast++[v] :=
        (dropLast_append_getLast? v hv).symm
      by_cases hpath : n.path=[]
      · rw [removeFromRing_root h (by simp [ht]) hn hids hpath (mem_of_getLast? hv)] at htrees
        simp at htrees
      · rw [removeFromRing_child h ht hpath] at htrees
        refine hring _ ?_ (Option.some.inj htrees).symm
        have hlabel : n.label=⟨e,n.label.variants.dropLast++[v]⟩ := by
          rw [← hvar,← howner]
        rw [hlabel]
        simpa using RingRemoved.owner v n.label.variants.dropLast
    next hnone =>
      have hlabel : n.label=⟨e,[]⟩ := by
        rw [← getLast?_eq_none_iff.mp hnone,← howner]
      refine ⟨_,_,_,_,_,hcontent,.of_node hlabel,?_⟩
      obtain ⟨hne,rfl⟩ | ⟨hnil,rfl⟩ := removeNode_spec h ht htrees
      · exact .inl ⟨by simpa using hne,by simp [Table.content,content]⟩
      · exact .inr ⟨by simpa using hnil,by simp [Table.content]⟩

/-- A removal ends unless the entry heads a ring at the root of its tree. -/
theorem Inv.exists_rtlRemoveUnicodePrefix (hroot : ¬HeadsRootRing t e) :
    ∃ fuel t', rtlRemoveUnicodePrefix fuel t e.id=some t' := by
  obtain ⟨A,tree,B,n,hpos,ht,-,hn,hmem⟩ := h.position he
  simp only [rtlRemoveUnicodePrefix,hpos,Option.bind_some]
  split
  next => exact ⟨0,_,rfl⟩
  next hid =>
    have howner : n.label.owner=e :=
      h.eq_of_id (mem_entries_of_label ht hn (by simp [Node.entries])) he (not_not.mp hid)
    split
    next v hv =>
      have hpath : n.path≠[] := by
        intro hpath
        refine hroot ⟨tree,by simp [ht],n.label,?_,howner,?_⟩
        · rw [← hn,Focus.tree,hpath]
          rfl
        · exact ne_nil_of_mem (mem_of_getLast? hv)
      exact ⟨0,_,by rw [removeFromRing_child h ht hpath]; rfl⟩
    next hnone =>
      obtain ⟨fuel,trees,htrees⟩ := exists_removeNode h ht
      exact ⟨fuel,_,by rw [htrees]; rfl⟩

/-- At the root the search never comes to an end. -/
theorem Inv.rtlRemoveUnicodePrefix_eq_none (hroot : HeadsRootRing t e) (fuel : Nat) :
    rtlRemoveUnicodePrefix fuel t e.id=none := by
  obtain ⟨A,tree,B,n,hpos,ht,hloc,hn,hmem⟩ := h.position he
  obtain ⟨tree',htree',a,ha,howner,hvariants⟩ := hroot
  have hmem' : e∈tree'.entries :=
    mem_entries_of_links_root ha e (by simp [Node.entries,howner])
  have hentry : e∈tree.entries := by
    rw [entries,← hn,Focus.toList_tree]
    simp [hmem]
  obtain rfl := h.tree_unique (by simp [ht]) htree' hentry hmem'
  -- the entry is met at the root
  have hfocus : n.label=a ∧ n.path=[] := by
    cases hlinks : tree.links with
    | nil => simp [hlinks,BinTree.root] at ha
    | node l b r =>
      rw [hlinks,BinTree.root,Option.some_inj] at ha
      have htest : b.entries.any (fun x => x.id=e.id)=true := by
        rw [any_eq_true]
        exact ⟨e,by simp [Node.entries,ha,howner],by simp⟩
      rw [hlinks,locate,if_pos htest,Option.some_inj] at hloc
      exact ⟨by rw [← hloc,ha],by rw [← hloc]⟩
  obtain ⟨hlabel,hpath⟩ := hfocus
  rw [rtlRemoveUnicodePrefix,hpos,Option.bind_some]
  simp only [Option.map_eq_none_iff]
  rw [if_neg (by rw [hlabel,howner]; simp)]
  split
  next v hv =>
    exact removeFromRing_root h htree' hn (h.node_ids ht hn) hpath (mem_of_getLast? hv) _
  next hnone => exact absurd (getLast?_eq_none_iff.mp hnone) (hlabel ▸ hvariants)

end

end Remove

end Odyssey.Rtl.PrefixTable
