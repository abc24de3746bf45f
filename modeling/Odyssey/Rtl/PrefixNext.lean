import Odyssey.Rtl.PrefixLookup

/-! The enumeration of a prefix table. -/
namespace Odyssey.Rtl.PrefixTable
open TreeZipper SplayLinks List Option PrefixTree

def rtlNexts : Nat → Table → Option (List (Option Entry) × Table)
  | 0, t => some ([], t)
  | k+1, t => (rtlNextUnicodePrefix t false).bind fun r =>
      (rtlNexts k r.2).map fun rest => (r.1::rest.1, rest.2)

def enumeration (k : Nat) (t : Table) : Option (List (Option Entry)) :=
  (rtlNextUnicodePrefix t true).bind fun r => (rtlNexts k r.2).map fun rest => r.1::rest.1

/-- All entries come, each of them once, and then a null pointer. -/
def Enumerates (t : Table) : Prop :=
  ∃ l : List Entry, l.Perm t.entries ∧ enumeration l.length t=some (l.map some++[none])

theorem rtlNexts_add (j k : Nat) (t : Table) :
    rtlNexts (j+k) t=(rtlNexts j t).bind fun r =>
      (rtlNexts k r.2).map fun rest => (r.1++rest.1, rest.2) := by
  induction j generalizing t with
  | zero => simp [rtlNexts]
  | succ j ih =>
    rw [Nat.succ_add,rtlNexts,rtlNexts]
    cases rtlNextUnicodePrefix t false with
    | none => rfl
    | some r =>
      simp only [bind_some,ih]
      cases rtlNexts j r.2 with
      | none => rfl
      | some q =>
        simp only [bind_some,map_some]
        cases rtlNexts k q.2 <;> rfl

variable {u : UpcaseTable} {t : Table} {e : Entry} {tree : PrefixTree} {A B : List PrefixTree}

theorem caseMatch_append {V W : List Entry} (h : e.id∉V.map Entry.id) :
    caseMatch e.id (V++e::W)=W.head? := by
  induction V with
  | nil => simp [caseMatch]
  | cons x V ih =>
    simp only [map_cons,mem_cons,not_or] at h
    rw [cons_append,caseMatch,if_neg (Ne.symm h.1),ih h.2]

section

variable (h : Inv u t.content)
include h

theorem Inv.nodup_entries : t.entries.Nodup := by
  have hids := h.ids
  rw [← t.entries_eq] at hids
  exact hids.of_map

section
variable (ht : t.trees=A++tree::B) {X Y : List Entry}
include ht

/-- The last tree is the one behind which the table comes. -/
theorem Inv.nextPrefixTree_root : nextPrefixTree t.roots tree.root=none ↔ B=[] := by
  obtain ⟨r,hr,-⟩ := h.exists_root tree (by simp [ht])
  have hnd := h.nodup_roots
  rw [roots_split ht hr] at hnd
  have hnext := nextPrefixTree_getLast (R := A.filterMap root++[r])
    (by simpa using hnd)
  rw [getLast?_concat,append_assoc,singleton_append,← roots_split ht hr,← hr]
    at hnext
  rw [hnext,head?_eq_none_iff]
  constructor
  · intro hnil
    cases B with
    | nil => rfl
    | cons T B =>
      obtain ⟨q,hq,-⟩ := h.exists_root T (by simp [ht])
      rw [filterMap_cons_some hq] at hnil
      simp at hnil
  · intro hnil
    rw [hnil,filterMap_nil]

/-- The place of an entry in its tree: on the ring of a node, and among the nodes in order. -/
theorem Inv.place (hentries : tree.entries=X++e::Y) :
    ∃ n V W, t.position e.id=some (tree, n) ∧ n.tree=tree.links ∧
      n.label.entries=V++e::W ∧ e.id∉V.map Entry.id ∧
      Y=W++n.back.flatMap Node.entries := by
  have htree : tree∈t.trees := by simp [ht]
  have hmem : e∈tree.entries := by simp [hentries]
  obtain ⟨A',tree',B',n,hpos,ht',-,hn,hlabel⟩ :=
    h.position (mem_flatMap.mpr ⟨tree,htree,hmem⟩)
  have hmem' : e∈tree'.entries := by
    rw [entries,← hn,Focus.toList_tree]
    simp [hlabel]
  obtain rfl := h.tree_unique htree (by simp [ht']) hmem hmem'
  obtain ⟨V,W,hVW⟩ := append_of_mem hlabel
  have hids := h.node_ids ht' hn
  rw [hVW,map_append,nodup_append] at hids
  refine ⟨n,V,W,hpos,hn,hVW,fun hV => hids.2.2 _ hV e.id (by simp) rfl,?_⟩
  have hnd : tree.entries.Nodup := (nodup_flatMap.mp h.nodup_entries).1 tree htree
  have hsplit : X++e::Y =
      (n.front.flatMap Node.entries++V)++e::(W++n.back.flatMap Node.entries) := by
    rw [← hentries,entries,← hn,Focus.toList_tree]
    simp [hVW]
  rw [hentries,nodup_append,nodup_cons] at hnd
  have hX : e∉X := fun hX => hnd.2.2 e hX e (by simp) rfl
  exact ((append_cons_inj_of_notMem hX hnd.2.1.1).mp hsplit).2.2

/-- Inside a tree the enumeration goes on with the next entry. -/
theorem Inv.next_step (hlast : t.lastNextEntry=some e.id) {e' : Entry}
    (hentries : tree.entries=X++e::e'::Y) :
    rtlNextUnicodePrefix t false=some (some e', ⟨t.trees,some e'.id⟩) := by
  obtain ⟨n,V,W,hpos,hn,hlabel,hV,hY⟩ := h.place ht hentries
  simp only [rtlNextUnicodePrefix,Bool.false_eq_true,if_false,hlast,hpos,bind_some,
    hlabel,caseMatch_append hV]
  cases W with
  | cons w W =>
    obtain ⟨rfl,-⟩ : e'=w ∧ _ := by simpa using hY
    rfl
  | nil =>
    rw [rtlRealSuccessor_eq]
    cases hback : n.back with
    | nil => simp [hback] at hY
    | cons b back =>
      obtain ⟨rfl,-⟩ : e'=b.owner ∧ _ := by simpa [hback,Node.entries] using hY
      rfl

/-- What the call after the last entry of a tree returns. -/
theorem Inv.next_end (hlast : t.lastNextEntry=some e.id) {X : List Entry}
    (hentries : tree.entries=X++[e]) {a : Node} (ha : tree.links.toList.getLast?=some a) :
    rtlNextUnicodePrefix t false =
      if a.variants≠[] then none
      else if B=[] then some (none, t)
      else tree.links.first.map fun b => (some b.owner, ⟨t.trees,some b.owner.id⟩) := by
  obtain ⟨n,V,W,hpos,hn,hlabel,hV,hY⟩ := h.place ht hentries
  obtain ⟨rfl,hback⟩ := append_eq_nil_iff.mp hY.symm
  have hnil : n.back=[] := by
    cases hb : n.back with
    | nil => rfl
    | cons b back => simp [hb,Node.entries] at hback
  have hna : n.label=a := by
    rw [← hn,Focus.toList_tree,hnil,getLast?_concat] at ha
    exact Option.some.inj ha
  -- the last entry is the one of the node exactly if it is alone on the ring
  have howner : n.label.owner.id=e.id ↔ a.variants=[] := by
    rw [← hna]
    rw [Node.entries] at hlabel
    cases V with
    | nil =>
      rw [nil_append,List.cons.injEq] at hlabel
      exact iff_of_true (by rw [hlabel.1]) hlabel.2
    | cons x V =>
      rw [cons_append,List.cons.injEq] at hlabel
      refine iff_of_false (fun hid => hV ?_) (by simp [hlabel.2])
      rw [← hid,hlabel.1]
      simp
  simp [rtlNextUnicodePrefix,hlast,hpos,hlabel,caseMatch_append hV,rtlRealSuccessor_eq,hnil,
    howner,h.nextPrefixTree_root ht]

/-- A run through the rest of a tree. -/
theorem Inv.rtlNexts_tree
    (hlast : t.lastNextEntry=some e.id) (hentries : tree.entries=X++e::Y) :
    ∃ f, (e::Y).getLast?=some f ∧
      rtlNexts Y.length t=some (Y.map some, ⟨t.trees,some f.id⟩) := by
  induction Y generalizing t e X with
  | nil =>
    refine ⟨e,rfl,?_⟩
    rw [← hlast]
    rfl
  | cons e' Y ih =>
    have hnext := h.next_step ht hlast hentries
    obtain ⟨f,hf,hrun⟩ := @ih ⟨t.trees,some e'.id⟩ e' h ht (X++[e]) rfl (by simp [hentries])
    refine ⟨f,by simpa using hf,?_⟩
    rw [length_cons,rtlNexts,hnext,bind_some,hrun]
    rfl

end

end

/-- The first call returns the first entry of the first tree. -/
theorem next_restart (ht : t.trees=tree::B) {Y : List Entry} (hentries : tree.entries=e::Y) :
    tree.links.first.map Node.owner=some e ∧
      rtlNextUnicodePrefix t true=some (some e, ⟨t.trees,some e.id⟩) := by
  have hfirst : tree.links.first.map Node.owner=some e := by
    rw [BinTree.first_eq]
    rw [entries] at hentries
    cases hlist : tree.links.toList with
    | nil => simp [hlist] at hentries
    | cons a l =>
      obtain ⟨rfl,-⟩ : a.owner=e ∧ _ := by simpa [hlist,Node.entries] using hentries
      rfl
  refine ⟨hfirst,?_⟩
  obtain ⟨a,ha,rfl⟩ := map_eq_some_iff.mp hfirst
  simp [rtlNextUnicodePrefix,ht,ha]

/-- The calls up to the end of the first tree, and the one after them. -/
theorem Inv.enumeration_tree (h : Inv u t.content) (ht : t.trees=tree::B) :
    ∃ e Y, tree.entries=e::Y ∧ tree.links.first.map Node.owner=some e ∧
      ∃ (f : Entry) (X : List Entry), tree.entries=X++[f] ∧ ∀ k, enumeration (Y.length+k) t =
        (rtlNexts k ⟨t.trees,some f.id⟩).map fun rest => (e::Y).map some++rest.1 := by
  obtain ⟨r,-,hr⟩ := h.exists_root tree (by simp [ht])
  cases hentries : tree.entries with
  | nil => simp [hentries] at hr
  | cons e Y =>
    obtain ⟨hfirst,hrestart⟩ := next_restart ht hentries
    have h' : Inv u (Table.content ⟨t.trees,some e.id⟩) := h
    obtain ⟨f,hf,hrun⟩ := @Inv.rtlNexts_tree u ⟨t.trees,some e.id⟩ e tree [] B h' ht [] Y rfl
      hentries
    refine ⟨e,Y,rfl,hfirst,f,(e::Y).dropLast,?_,fun k => ?_⟩
    · exact (dropLast_append_getLast? f hf).symm
    · rw [enumeration,hrestart,Option.bind_some,rtlNexts_add,hrun,Option.bind_some,Option.map_map]
      rfl

/-- Nothing is left to change over to, and the last node has no case variants. -/
def SingleTree (t : Table) : Prop :=
  t.trees=[] ∨ ∃ tree, t.trees=[tree] ∧
    ∀ a, tree.links.toList.getLast?=some a → a.variants=[]

theorem Inv.exists_getLast (h : Inv u t.content) (tree : PrefixTree) (htree : tree∈t.trees) :
    ∃ a, tree.links.toList.getLast?=some a := by
  have hne := (h.tree tree.content (mem_map_of_mem htree)).nodes
  exact ⟨_,getLast?_eq_some_getLast hne⟩

theorem Inv.enumerates (h : Inv u t.content) (hsingle : SingleTree t) : Enumerates t := by
  obtain hnil | ⟨tree,ht,hvariants⟩ := hsingle
  · refine ⟨[],by simp [Table.entries,hnil],?_⟩
    simp [enumeration,rtlNextUnicodePrefix,hnil,rtlNexts]
  · obtain ⟨e,Y,hentries,-,f,X,hX,hrun⟩ := h.enumeration_tree ht
    obtain ⟨a,ha⟩ := h.exists_getLast tree (by simp [ht])
    have h' : Inv u (Table.content ⟨t.trees,some f.id⟩) := h
    have hend : rtlNextUnicodePrefix ⟨t.trees,some f.id⟩ false =
        some (none, ⟨t.trees,some f.id⟩) := by
      have hnext := h'.next_end (A := []) ht rfl hX ha
      simpa [hvariants a ha] using hnext
    refine ⟨tree.entries,by simp [Table.entries,ht],?_⟩
    rw [hentries,length_cons,hrun,rtlNexts,hend]
    rfl

theorem Inv.singleTree (h : Inv u t.content) (henum : Enumerates t) : SingleTree t := by
  cases ht : t.trees with
  | nil => exact .inl ht
  | cons tree rest =>
    obtain ⟨l,hperm,hl⟩ := henum
    obtain ⟨e,Y,hentries,hfirst,f,X,hX,hrun⟩ := h.enumeration_tree ht
    obtain ⟨a,ha⟩ := h.exists_getLast tree (by simp [ht])
    have h' : Inv u (Table.content ⟨t.trees,some f.id⟩) := h
    have hnext := h'.next_end (A := []) ht rfl hX ha
    have hlength : l.length=Y.length+((rest.flatMap entries).length+1) := by
      rw [hperm.length_eq,Table.entries,ht,flatMap_cons,hentries]
      simp only [length_append,length_cons]
      omega
    rw [hlength,hrun,rtlNexts] at hl
    -- the call after the last entry of the first tree must not fail
    have hvariants : a.variants=[] := by
      by_contra hne
      rw [hnext,if_pos hne] at hl
      simp at hl
    rw [hnext,if_neg (not_not.mpr hvariants)] at hl
    refine .inr ⟨tree,?_,fun b hb => ?_⟩
    · by_contra hrest
      have hne : rest≠[] := fun hnil => hrest (by rw [ht,hnil])
      obtain ⟨b,hb,rfl⟩ := Option.map_eq_some_iff.mp hfirst
      rw [if_neg hne,hb,Option.map_some,Option.bind_some,Option.map_map] at hl
      obtain ⟨r,-,hr⟩ := Option.map_eq_some_iff.mp hl
      -- it returns the first entry again
      have hdup : ((b.owner::Y)++[b.owner]).map some <+: l.map some++[none] :=
        ⟨r.1,by rw [← hr]; simp⟩
      obtain ⟨T,rest',rfl⟩ := exists_cons_of_ne_nil hne
      obtain ⟨q,-,hq⟩ := h.exists_root T (by simp [ht])
      have hpos : 0<((T::rest').flatMap entries).length := by
        rw [flatMap_cons,length_append]
        have := length_pos_of_mem hq
        simp only [length_map] at this
        omega
      have hpre : ((b.owner::Y)++[b.owner]).map some <+: l.map some := by
        refine prefix_of_prefix_length_le hdup (prefix_append _ _) ?_
        simp only [length_map,length_append,length_cons,length_nil]
        omega
      have hnd : (l.map some).Nodup :=
        (hperm.nodup_iff.mpr h.nodup_entries).map (some_injective Entry)
      have hnd' := hnd.sublist hpre.sublist
      simp at hnd'
    · rw [ha,some_inj] at hb
      rw [← hb,hvariants]

/-- Prefix enumeration: after the last entry of a tree the walk starts over at the same tree, and
the links of a case variant lead nowhere. -/
theorem rtlNextUnicodePrefix_enumerates_iff (h : Reachable u t) : Enumerates t ↔ SingleTree t :=
  ⟨h.inv.singleTree,h.inv.enumerates⟩

/-- The prefixes `b` and `a` are enumerated. -/
theorem rtlNextUnicodePrefix_enumerates_one_tree :
    SingleTree (twoEntries ⟨1,[0x62]⟩ ⟨2,[0x61]⟩) ∧
      Enumerates (twoEntries ⟨1,[0x62]⟩ ⟨2,[0x61]⟩) := by
  have hsingle : SingleTree (twoEntries ⟨1,[0x62]⟩ ⟨2,[0x61]⟩) := by
    refine .inr ⟨⟨1,.node (.node .nil ⟨⟨2,[0x61]⟩,[]⟩ .nil) ⟨⟨1,[0x62]⟩,[]⟩ .nil⟩,by decide,?_⟩
    intro a ha
    obtain rfl : ⟨⟨1,[0x62]⟩,[]⟩=a := Option.some.inj ha
    rfl
  exact ⟨hsingle,(rtlNextUnicodePrefix_enumerates_iff
    (reachable_twoEntries (by decide) (by decide) (by decide) (by decide) (by decide))).mpr hsingle⟩

/-- With the prefixes `a` and `a\b` the first call after the restart returns the same entry
again. -/
theorem rtlNextUnicodePrefix_not_enumerates : ∃ t, Reachable .ascii t ∧ ¬Enumerates t := by
  have hreach : Reachable .ascii (twoEntries ⟨1,[0x61]⟩ ⟨2,[0x61,0x5C,0x62]⟩) :=
    reachable_twoEntries (by decide) (by decide) (by decide) (by decide) (by decide)
  refine ⟨twoEntries ⟨1,[0x61]⟩ ⟨2,[0x61,0x5C,0x62]⟩,hreach,fun h => ?_⟩
  obtain ⟨l,hperm,hl⟩ := h
  have hlength : l.length=2 := hperm.length_eq
  have hrun : enumeration 2 (twoEntries ⟨1,[0x61]⟩ ⟨2,[0x61,0x5C,0x62]⟩) =
      some (List.replicate 3 (some ⟨2,[0x61,0x5C,0x62]⟩)) := by decide
  rw [hlength,hrun,some_inj] at hl
  have hmem : none∈List.replicate 3 (some (⟨2,[0x61,0x5C,0x62]⟩ : Entry)) := by
    rw [hl]
    simp
  simp at hmem

end Odyssey.Rtl.PrefixTable
