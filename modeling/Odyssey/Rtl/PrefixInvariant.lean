import Odyssey.Rtl.PrefixOrder

/-! What a prefix table holds, apart from the shape of its trees, and the invariant of it that
lookups, insertions and enumerations keep. -/
namespace Odyssey.Rtl.PrefixTable
open TreeZipper SplayLinks ComponentKeys PrefixTree

abbrev TreeContent := Nat × List Node

def PrefixTree.content (tree : PrefixTree) : TreeContent := (tree.nameLength, tree.links.toList)

def Table.content (t : Table) : List TreeContent := t.trees.map PrefixTree.content

def entriesOf (c : List TreeContent) : List Entry := c.flatMap fun x => x.2.flatMap Node.entries

theorem Table.entries_eq (t : Table) : t.entries=entriesOf t.content := by
  rw [entriesOf,Table.content,List.flatMap_map]
  rfl

@[simp] theorem entriesOf_append (A B : List TreeContent) :
    entriesOf (A++B)=entriesOf A++entriesOf B := List.flatMap_append

@[simp] theorem entriesOf_cons (x : TreeContent) (B : List TreeContent) :
    entriesOf (x::B)=x.2.flatMap Node.entries++entriesOf B := List.flatMap_cons

variable (u : UpcaseTable) {c c' : List TreeContent} {l l' : List Node} {t : Table}

def Sorted (l : List Node) : Prop := l.Pairwise fun a b => key u a.owner.name<key u b.owner.name

structure NodeOk (n : Nat) (a : Node) : Prop where
  name : a.owner.name≠[]
  count : computeUnicodeNameLength a.owner.name=n
  ring : ∀ e∈a.variants, key u e.name=key u a.owner.name
  distinct : (a.entries.map Entry.name).Nodup

structure TreeOk (x : TreeContent) : Prop where
  nodes : x.2≠[]
  node : ∀ a∈x.2, NodeOk u x.1 a
  sorted : Sorted u x.2

structure Inv (c : List TreeContent) : Prop where
  tree : ∀ x∈c, TreeOk u x
  descending : c.Pairwise fun x y => y.1<x.1
  ids : ((entriesOf c).map Entry.id).Nodup

variable {u} {A B : List TreeContent} {x y : TreeContent} {new : Entry}

/-- Another content for one of the trees. -/
theorem Inv.replace (h : Inv u (A++x::B)) (hcount : y.1=x.1) (hy : TreeOk u y)
    (hids : ((entriesOf (A++y::B)).map Entry.id).Nodup) : Inv u (A++y::B) where
  tree z hz := by
    obtain hz | rfl | hz : z∈A ∨ z=y ∨ z∈B := by simpa using hz
    · exact h.tree z (by simp [hz])
    · exact hy
    · exact h.tree z (by simp [hz])
  descending := by
    have hd := h.descending
    rw [List.pairwise_append,List.pairwise_cons] at hd ⊢
    obtain ⟨hA,⟨hxB,hB⟩,hAB⟩ := hd
    refine ⟨hA,⟨hcount ▸ hxB,hB⟩,fun z hz w hw => ?_⟩
    cases List.mem_cons.mp hw with
    | inl heq =>
      rw [heq,hcount]
      exact hAB z hz x (by simp)
    | inr hw => exact hAB z hz w (by simp [hw])
  ids := hids

theorem Inv.sublist (h : Inv u c) (hc : c'.Sublist c) : Inv u c' where
  tree z hz := h.tree z (hc.subset hz)
  descending := h.descending.sublist hc
  ids := h.ids.sublist ((hc.flatMap fun x => x.2.flatMap Node.entries).map Entry.id)

theorem NodeOk.single (hname : new.name≠[]) :
    NodeOk u (computeUnicodeNameLength new.name) ⟨new,[]⟩ where
  name := hname
  count := rfl
  ring := by simp
  distinct := by simp [Node.entries]

/-- A new tree with one node. -/
theorem Inv.add (h : Inv u (A++B)) (hname : new.name≠[])
    (hA : ∀ z∈A, computeUnicodeNameLength new.name<z.1)
    (hB : ∀ z∈B, z.1<computeUnicodeNameLength new.name)
    (hids : ((entriesOf (A++(computeUnicodeNameLength new.name, [⟨new,[]⟩])::B)).map
      Entry.id).Nodup) :
    Inv u (A++(computeUnicodeNameLength new.name, [⟨new,[]⟩])::B) where
  tree z hz := by
    obtain hz | rfl | hz : z∈A ∨ z=_ ∨ z∈B := by simpa using hz
    · exact h.tree z (by simp [hz])
    · exact ⟨by simp,by simpa using NodeOk.single hname,by simp [Sorted]⟩
    · exact h.tree z (by simp [hz])
  descending := by
    have hd := h.descending
    rw [List.pairwise_append] at hd
    rw [List.pairwise_append,List.pairwise_cons]
    refine ⟨hd.1,⟨hB,hd.2.1⟩,fun z hz w hw => ?_⟩
    cases List.mem_cons.mp hw with
    | inl heq =>
      rw [heq]
      exact hA z hz
    | inr hw => exact hd.2.2 z hz w hw
  ids := hids

theorem content_findInTrees (fullName : List WChar) (index : Nat) (trees : List PrefixTree) :
    (findInTrees u fullName index trees).2.map content =
      trees.map content := by
  induction trees with
  | nil => rfl
  | cons tree rest ih =>
    rw [findInTrees]
    split
    next => simp [ih]
    next a ha =>
      have htree := Focus.toList_tree a
      rw [(search_found ha).1,plug,Focus.front,Focus.back] at htree
      split
      next => simp [content,toList_rtlSplay,htree]
      next =>
        split
        next => rfl
        next => simp [ih]

@[simp] theorem content_rtlFindUnicodePrefix (t : Table) (fullName : List WChar) (index : Nat) :
    (rtlFindUnicodePrefix u t fullName index).2.content=t.content := by
  simp only [rtlFindUnicodePrefix,Table.content,List.map_append,content_findInTrees]
  rw [← List.map_append,List.takeWhile_append_dropWhile]

theorem trees_rtlNextUnicodePrefix {t t' : Table} {restart : Bool} {e : Option Entry}
    (h : rtlNextUnicodePrefix t restart=some (e, t')) : t'.trees=t.trees := by
  have hreturned : ∀ a : Option Node,
      (a.map fun a => (some a.owner, (⟨t.trees,some a.owner.id⟩ : Table)))=some (e, t') →
        t'.trees=t.trees := by
    intro a ha
    cases a with
    | none => simp at ha
    | some a =>
      cases ha
      rfl
  rw [rtlNextUnicodePrefix] at h
  split at h
  · split at h
    · cases h
      rfl
    · exact hreturned _ h
  · obtain ⟨⟨tree,n⟩,-,h⟩ := Option.bind_eq_some_iff.mp h
    simp only at h
    split at h
    · cases h
      rfl
    · split at h
      · exact hreturned _ h
      · split at h
        · simp at h
        · split at h
          · cases h
            rfl
          · exact hreturned _ h

def Inserted (u : UpcaseTable) (new : Entry) (l l' : List Node) : Prop :=
  (∃ X Y, l=X++Y ∧ l'=X++⟨new,[]⟩::Y ∧
    (∀ a∈X, key u a.owner.name<key u new.name) ∧
    ∀ a∈Y, key u new.name<key u a.owner.name) ∨
  ∃ X a Y, l=X++a::Y ∧ l'=X++⟨a.owner,new::a.variants⟩::Y ∧
    key u a.owner.name=key u new.name ∧ ∀ e∈a.entries,
      compareUnicodeStrings u e.name new.name 0xFFFFFFFF ≠ .equal

theorem Inserted.extend (h : Inserted u new l l') {V W : List Node}
    (hV : ∀ a∈V, key u a.owner.name<key u new.name)
    (hW : ∀ a∈W, key u new.name<key u a.owner.name) :
    Inserted u new (V++l++W) (V++l'++W) := by
  obtain ⟨X,Y,rfl,rfl,hX,hY⟩ | ⟨X,a,Y,rfl,rfl,hkey,hnew⟩ := h
  · refine .inl ⟨V++X,Y++W,by simp,by simp,?_,?_⟩
    · exact fun a ha => (List.mem_append.mp ha).elim (hV a) (hX a)
    · exact fun a ha => (List.mem_append.mp ha).elim (hY a) (hW a)
  · exact .inr ⟨V++X,a,Y++W,by simp,by simp,hkey,hnew⟩

theorem inserted_single {X Y : List Node} (hX : ∀ a∈X, key u a.owner.name<key u new.name)
    (hY : ∀ a∈Y, key u new.name<key u a.owner.name) :
    Inserted u new (X++Y) (X++⟨new,[]⟩::Y) := .inl ⟨X,Y,rfl,rfl,hX,hY⟩

/-- The order in which an insertion goes down a tree. -/
theorem compare_order (u : UpcaseTable) (p s : List WChar) :
    (compareUnicodeStrings u p s 0 = .equal ∧ key u p=key u s) ∨
      (compareUnicodeStrings u p s 0 = .greaterThan ∧ key u s<key u p) ∨
      ((compareUnicodeStrings u p s 0 = .properPrefix ∨ compareUnicodeStrings u p s 0 = .lessThan) ∧
        key u p<key u s) := by
  obtain h | h | ⟨hres,hlt,-⟩ | ⟨hres,hlt,-⟩ := compare_zero_cases u p s
  · exact .inl h
  · exact .inr (.inl h)
  · exact .inr (.inr ⟨.inl hres,hlt⟩)
  · exact .inr (.inr ⟨.inr hres,hlt⟩)

section InsertRight
variable {l r : BinTree Node} {a : Node} {up : Path Node}
  (h : compareUnicodeStrings u a.owner.name new.name 0 = .properPrefix ∨
    compareUnicodeStrings u a.owner.name new.name 0 = .lessThan)
include h

theorem insertLinks_right_nil : insertLinks u new (.node l a .nil) up =
    some (rtlSplay l a (.node .nil ⟨new,[]⟩ .nil) up) := by
  obtain h | h := h <;> rw [insertLinks.eq_def] <;> simp only [h]

theorem insertLinks_right {b : Node} {rl rr : BinTree Node} :
    insertLinks u new (.node l a (.node rl b rr)) up =
      insertLinks u new (.node rl b rr) (.right l a::up) := by
  obtain h | h := h <;> rw [insertLinks.eq_def] <;> simp only [h]

end InsertRight

/-- The search loop ends where the new prefix belongs. -/
theorem insertLinks_spec {t t' : BinTree Node} {up : Path Node} (hsorted : Sorted u t.toList)
    (h : insertLinks u new t up=some t') :
    ∃ l, Inserted u new t.toList l ∧ t'.toList=before up++l++after up := by
  induction t generalizing up with
  | nil => simp [insertLinks] at h
  | node l a r ihl ihr =>
    rw [Sorted,BinTree.toList_node,List.pairwise_append,List.pairwise_cons] at hsorted
    obtain ⟨hl,⟨har,hr⟩,hlr⟩ := hsorted
    have hla : ∀ b∈l.toList, key u b.owner.name<key u a.owner.name := fun b hb =>
      hlr b hb a (by simp)
    -- what follows from the order of the new prefix and the one of this node
    have hbefore : key u a.owner.name<key u new.name →
        ∀ b∈l.toList++[a], key u b.owner.name<key u new.name := by
      intro hlt b hb
      obtain hb | rfl : b∈l.toList ∨ b=a := by simpa using hb
      · exact (hla b hb).trans hlt
      · exact hlt
    have hafter : key u new.name<key u a.owner.name →
        ∀ b∈a::r.toList, key u new.name<key u b.owner.name := by
      intro hlt b hb
      obtain rfl | hb : b=a ∨ b∈r.toList := by simpa using hb
      · exact hlt
      · exact hlt.trans (har b hb)
    obtain ⟨hres,hkey⟩ | ⟨hres,hkey⟩ | ⟨hres,hkey⟩ := compare_order u a.owner.name new.name
    · rw [insertLinks.eq_def] at h
      simp only [hres] at h
      split at h
      · simp at h
      · rename_i hnew
        cases h
        refine ⟨_,.inr ⟨l.toList,a,r.toList,rfl,rfl,hkey,?_⟩,?_⟩
        · simpa using hnew
        · simp [toList_rtlSplay]
    · rw [insertLinks.eq_def] at h
      simp only [hres] at h
      cases l with
      | nil =>
        cases h
        refine ⟨_,inserted_single (by simp) (hafter hkey),?_⟩
        simp [toList_rtlSplay]
      | node ll b lr =>
        obtain ⟨L,hL,ht'⟩ := ihl hl h
        refine ⟨_,hL.extend (V := []) (by simp) (hafter hkey),?_⟩
        simp [ht',before,after]
    · cases r with
      | nil =>
        rw [insertLinks_right_nil hres] at h
        cases h
        refine ⟨l.toList++[a]++[⟨new,[]⟩],?_,by simp [toList_rtlSplay]⟩
        simpa using inserted_single (hbefore hkey) (by simp)
      | node rl b rr =>
        rw [insertLinks_right hres] at h
        obtain ⟨L,hL,ht'⟩ := ihr hr h
        refine ⟨l.toList++[a]++L,?_,by simp [ht',before,after]⟩
        simpa using hL.extend (hbefore hkey) (W := []) (by simp)

theorem Inserted.perm (h : Inserted u new l l') :
    (l'.flatMap Node.entries).Perm (new::l.flatMap Node.entries) := by
  obtain ⟨X,Y,rfl,rfl,-,-⟩ | ⟨X,a,Y,rfl,rfl,-,-⟩ := h
  · simp only [List.flatMap_append,List.flatMap_cons,Node.entries]
    exact List.perm_middle
  · simp only [List.flatMap_append,List.flatMap_cons,Node.entries,List.cons_append]
    exact ((List.Perm.swap new a.owner _).append_left _).trans List.perm_middle

theorem NodeOk.insert {n : Nat} {a : Node} (h : NodeOk u n a)
    (hkey : key u a.owner.name=key u new.name) (hlength : new.name.length≤32767)
    (hnew : ∀ e∈a.entries, compareUnicodeStrings u e.name new.name 0xFFFFFFFF ≠ .equal) :
    NodeOk u n ⟨a.owner,new::a.variants⟩ where
  name := h.name
  count := h.count
  ring e he := by
    cases List.mem_cons.mp he with
    | inl heq => rw [heq,hkey]
    | inr he => exact h.ring e he
  distinct := by
    have hnot : new.name∉a.entries.map Entry.name := by
      intro hmem
      obtain ⟨e,he,heq⟩ := List.mem_map.mp hmem
      exact hnew e he ((compare_exact (by rw [heq]) (by omega)).mpr heq)
    have hperm : (Node.entries ⟨a.owner,new::a.variants⟩).Perm (new::a.entries) :=
      List.Perm.swap new a.owner a.variants
    rw [(hperm.map Entry.name).nodup_iff]
    exact List.nodup_cons.mpr ⟨hnot,h.distinct⟩

theorem Inserted.treeOk (h : Inserted u new l l')
    (hl : TreeOk u (computeUnicodeNameLength new.name, l)) (hname : new.name≠[])
    (hlength : new.name.length≤32767) :
    TreeOk u (computeUnicodeNameLength new.name, l') := by
  obtain ⟨X,Y,rfl,rfl,hX,hY⟩ | ⟨X,a,Y,rfl,rfl,hkey,hnew⟩ := h
  · refine ⟨by simp,fun b hb => ?_,?_⟩
    · obtain hb | rfl | hb : b∈X ∨ b=⟨new,[]⟩ ∨ b∈Y := by simpa using hb
      · exact hl.node b (by simp [hb])
      · exact NodeOk.single hname
      · exact hl.node b (by simp [hb])
    · have hs : (X++Y).Pairwise _ := hl.sorted
      rw [List.pairwise_append] at hs
      refine List.pairwise_append.mpr ⟨hs.1,List.pairwise_cons.mpr ⟨hY,hs.2.1⟩,?_⟩
      intro b hb c hc
      cases List.mem_cons.mp hc with
      | inl heq =>
        rw [heq]
        exact hX b hb
      | inr hc => exact hs.2.2 b hb c hc
  · refine ⟨by simp,fun b hb => ?_,?_⟩
    · obtain hb | rfl | hb : b∈X ∨ b=⟨a.owner,new::a.variants⟩ ∨ b∈Y := by simpa using hb
      · exact hl.node b (by simp [hb])
      · exact (hl.node a (by simp)).insert hkey hlength hnew
      · exact hl.node b (by simp [hb])
    · have hs := hl.sorted
      simp only [Sorted,List.pairwise_append,List.pairwise_cons,List.mem_cons,forall_eq_or_imp]
        at hs ⊢
      exact hs

def TableInserted (u : UpcaseTable) (new : Entry) (c c' : List TreeContent) : Prop :=
  (∃ A B, c=A++B ∧ c'=A++(computeUnicodeNameLength new.name, [⟨new,[]⟩])::B ∧
    (∀ z∈A, computeUnicodeNameLength new.name<z.1) ∧
    ∀ z∈B, z.1<computeUnicodeNameLength new.name) ∨
  ∃ A l l' B, c=A++(computeUnicodeNameLength new.name, l)::B ∧
    c'=A++(computeUnicodeNameLength new.name, l')::B ∧ Inserted u new l l'

theorem insertTree_spec {trees trees' : List PrefixTree}
    (hsorted : ∀ tree∈trees, Sorted u tree.links.toList)
    (hdesc : (trees.map content).Pairwise fun x y => y.1<x.1)
    (h : insertTree u new trees=some trees') :
    TableInserted u new (trees.map content) (trees'.map content) := by
  induction trees generalizing trees' with
  | nil =>
    cases h
    exact .inl ⟨[],[],rfl,rfl,by simp,by simp⟩
  | cons tree rest ih =>
    rw [List.map_cons,List.pairwise_cons] at hdesc
    rw [insertTree] at h
    split at h
    next hlt =>
      obtain ⟨rest',hrest,rfl⟩ := Option.map_eq_some_iff.mp h
      obtain ⟨A,B,hc,hc',hA,hB⟩ | ⟨A,l,l',B,hc,hc',hins⟩ :=
        ih (fun x hx => hsorted x (by simp [hx])) hdesc.2 hrest
      · refine .inl ⟨tree.content::A,B,by simp [hc],by simp [hc'],fun z hz => ?_,hB⟩
        cases List.mem_cons.mp hz with
        | inl heq =>
          rw [heq]
          exact hlt
        | inr hz => exact hA z hz
      · exact .inr ⟨tree.content::A,l,l',B,by simp [hc],by simp [hc'],hins⟩
    next hle =>
      split at h
      next hne =>
        cases h
        refine .inl ⟨[],(tree::rest).map content,rfl,rfl,by simp,fun z hz => ?_⟩
        have htree : tree.content.1<computeUnicodeNameLength new.name := by
          simp only [content]
          omega
        cases List.mem_cons.mp hz with
        | inl heq =>
          rw [heq]
          exact htree
        | inr hz => exact (hdesc.1 z hz).trans htree
      next heq =>
        obtain ⟨links,hlinks,rfl⟩ := Option.map_eq_some_iff.mp h
        obtain ⟨l,hins,htoList⟩ := insertLinks_spec (hsorted tree (by simp)) hlinks
        refine .inr ⟨[],tree.links.toList,l,rest.map content,?_,?_,hins⟩
        · simp [content,not_not.mp heq]
        · simp [content,htoList,before,after]

theorem TableInserted.perm (h : TableInserted u new c c') :
    (entriesOf c').Perm (new::entriesOf c) := by
  obtain ⟨A,B,rfl,rfl,-,-⟩ | ⟨A,l,l',B,rfl,rfl,hins⟩ := h
  · simp only [entriesOf_append,entriesOf_cons,List.flatMap_singleton,Node.entries]
    exact List.perm_middle
  · simp only [entriesOf_append,entriesOf_cons]
    refine ((hins.perm.append_right _).append_left _).trans ?_
    exact List.perm_middle

theorem TableInserted.inv (h : TableInserted u new c c') (hc : Inv u c)
    (hname : new.name≠[]) (hlength : new.name.length≤32767)
    (hfresh : ∀ e∈entriesOf c, e.id≠new.id) : Inv u c' := by
  have hids : ((entriesOf c').map Entry.id).Nodup := by
    rw [(h.perm.map Entry.id).nodup_iff,List.map_cons,List.nodup_cons]
    refine ⟨fun hmem => ?_,hc.ids⟩
    obtain ⟨e,he,heq⟩ := List.mem_map.mp hmem
    exact hfresh e he heq
  obtain ⟨A,B,rfl,rfl,hA,hB⟩ | ⟨A,l,l',B,rfl,rfl,hins⟩ := h
  · exact hc.add hname hA hB hids
  · exact hc.replace rfl (hins.treeOk (hc.tree _ (by simp)) hname hlength) hids

theorem Inv.tableInserted {trees' : List PrefixTree} (h : Inv u t.content)
    (hinsert : insertTree u new t.trees=some trees') :
    TableInserted u new t.content (trees'.map PrefixTree.content) :=
  insertTree_spec (fun tree htree => (h.tree tree.content (List.mem_map_of_mem htree)).sorted)
    h.descending hinsert

theorem Inv.insert (h : Inv u t.content) (hname : new.name≠[])
    (hlength : new.name.length≤32767) (hfresh : ∀ e∈t.entries, e.id≠new.id) :
    Inv u (rtlInsertUnicodePrefix u t new).2.content := by
  rw [rtlInsertUnicodePrefix]
  split
  next => exact h
  next trees' htrees =>
    rw [t.entries_eq] at hfresh
    exact (h.tableInserted htrees).inv h hname hlength hfresh

end Odyssey.Rtl.PrefixTable
