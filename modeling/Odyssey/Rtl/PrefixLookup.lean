import Mathlib.Data.List.TakeWhile
import Odyssey.Rtl.PrefixRemoval

/-! Lookups in the prefix tables that the operations lead to: what they find, and what they still
find after a removal. -/
namespace Odyssey.Rtl.PrefixTable
open TreeZipper SplayLinks ComponentKeys List Option Table
variable {u : UpcaseTable} {t t' : Table} {s : List WChar} {index : Nat} {e : Entry}

theorem exists_entry_of_remove {fuel id : Nat} (h : rtlRemoveUnicodePrefix fuel t id=some t') :
    ∃ e∈t.entries, e.id=id := by
  obtain ⟨⟨tree,n⟩,hpos,-⟩ := bind_eq_some_iff.mp h
  obtain ⟨A,tree,B,ht,hloc,-⟩ := findSome?_eq_some_iff.mp hpos
  obtain ⟨n,hnode,-⟩ := map_eq_some_iff.mp hloc
  obtain ⟨hn,hany⟩ := locate_sound hnode
  obtain ⟨e,he,hid⟩ := any_eq_true.mp hany
  exact ⟨e,mem_entries_of_label ht hn he,by simpa using hid⟩

/-- Every table that the operations lead to is well formed. -/
theorem Reachable.inv (h : Reachable u t) : Inv u t.content := by
  induction h with
  | start => exact ⟨by simp [content,rtlInitializeUnicodePrefix],by
      simp [content,rtlInitializeUnicodePrefix],by
      simp [content,rtlInitializeUnicodePrefix,entriesOf]⟩
  | insert _ hname hlength hfresh ih => exact ih.insert hname hlength hfresh
  | find _ hname index ih =>
    rw [content_rtlFindUnicodePrefix]
    exact ih
  | remove _ hremove ih =>
    obtain ⟨e,he,rfl⟩ := exists_entry_of_remove hremove
    exact (ih.tableRemoved he hremove).inv ih
  | next _ hnext ih =>
    rw [content,trees_rtlNextUnicodePrefix hnext]
    exact ih

theorem direction_cases (u : UpcaseTable) (s : List WChar) (a : Node) :
    (direction u s a = .eq ∧ Boundary (key u a.owner.name) (key u s)) ∨
      (direction u s a = .gt ∧ key u s<key u a.owner.name) ∨
      (direction u s a = .lt ∧ key u a.owner.name<key u s ∧
        ¬Boundary (key u a.owner.name) (key u s)) := by
  rw [direction]
  obtain ⟨hres,hkey⟩ | ⟨hres,hlt⟩ | ⟨hres,-,hb⟩ | ⟨hres,hlt,hb⟩ :=
    compare_zero_cases u a.owner.name s
  · exact .inl ⟨by rw [hres],by rw [hkey],.inl hkey⟩
  · exact .inr (.inl ⟨by rw [hres],hlt⟩)
  · exact .inl ⟨by rw [hres],hb⟩
  · exact .inr (.inr ⟨by rw [hres],hlt,hb⟩)

variable {a : Node}

theorem direction_eq_iff : direction u s a = .eq ↔ Boundary (key u a.owner.name) (key u s) := by
  obtain ⟨hres,hb⟩ | ⟨hres,hlt⟩ | ⟨hres,-,hb⟩ := direction_cases u s a
  · exact iff_of_true hres hb
  · refine iff_of_false (by simp [hres]) fun hb => ?_
    by_cases heq : key u a.owner.name=key u s
    · exact absurd (heq ▸ hlt) (lt_irrefl _)
    · exact lt_asymm hlt (lt_of_isPrefix hb.1 heq)
  · exact iff_of_false (by simp [hres]) hb

/-- No stored prefix of more than one character ends in a backslash. -/
def NoTrailingBackslash (t : Table) : Prop :=
  ∀ e∈t.entries, e.name.getLast?=some backslash → e.name=[backslash]

def PlainNodes (u : UpcaseTable) (l : List Node) : Prop := ∀ a∈l, Plain (key u a.owner.name)

variable {x : TreeContent}

/-- Among prefixes of one number of components the search goes the right way. -/
theorem TreeOk.guided (h : TreeOk u x) (hplain : PlainNodes u x.2) (s : List WChar) :
    Guided (direction u s) x.2 := by
  refine h.sorted.imp_of_mem fun {a b} ha hb hlt hne => ?_
  have hcount : ∀ {c d}, c∈x.2 → d∈x.2 →
      components (key u c.owner.name)=components (key u d.owner.name) := by
    intro c d hc hd
    rw [← computeUnicodeNameLength_eq,← computeUnicodeNameLength_eq,(h.node c hc).count,
      (h.node d hd).count]
  have hne_nil : ∀ {c}, c∈x.2 → key u c.owner.name≠[] := fun hc =>
    fun heq => (h.node _ hc).name (key_eq_nil.mp heq)
  obtain ⟨-,hba⟩ | ⟨-,hgt⟩ | ⟨hres,-,-⟩ := direction_cases u s a
  · obtain ⟨-,hbb⟩ | ⟨hres,-⟩ | ⟨-,hlt',hbb⟩ := direction_cases u s b
    · have heq := hba.unique hbb (hplain a ha) (hplain b hb) (hne_nil ha) (hne_nil hb)
        (hcount ha hb)
      exact absurd (heq ▸ hlt) (lt_irrefl _)
    · exact hres
    · have hlt'' := hba.lt hbb hlt' (hplain b hb) (hne_nil ha) (hcount hb ha)
      exact absurd hlt'' (lt_asymm hlt)
  · obtain ⟨-,hbb⟩ | ⟨hres,-⟩ | ⟨-,hlt',-⟩ := direction_cases u s b
    · by_cases heq : key u b.owner.name=key u s
      · exact absurd (heq ▸ hgt.trans hlt) (lt_irrefl _)
      · exact absurd (lt_of_isPrefix hbb.1 heq) (lt_asymm (hgt.trans hlt))
    · exact hres
    · exact absurd hlt' (lt_asymm (hgt.trans hlt))
  · exact absurd hres hne

def pick (u : UpcaseTable) (s : List WChar) (index : Nat) (a : Node) : Option Entry :=
  if index=0 then some a.owner else a.entries.find? (caseSensitiveMatch u s index)

theorem mem_of_pick (h : pick u s index a=some e) : e∈a.entries := by
  rw [pick] at h
  split at h
  · cases h
    simp [Node.entries]
  · exact mem_of_find?_eq_some h

def lookupIn (u : UpcaseTable) (s : List WChar) (index : Nat) (l : List Node) : Option Entry :=
  (l.find? fun a => direction u s a = .eq).bind (pick u s index)

def lookup (u : UpcaseTable) (s : List WChar) (index : Nat) (c : List TreeContent) : Option Entry :=
  c.findSome? fun x => lookupIn u s index x.2

theorem findInTrees_eq {trees : List PrefixTree}
    (h : ∀ tree∈trees, Guided (direction u s) tree.links.toList) :
    (findInTrees u s index trees).1=lookup u s index (trees.map PrefixTree.content) := by
  induction trees with
  | nil => rfl
  | cons tree rest ih =>
    have hlabel := search_label (h tree (by simp)) []
    have ih' := ih fun x hx => h x (by simp [hx])
    rw [findInTrees,lookup,map_cons,findSome?_cons,lookupIn,PrefixTree.content,← hlabel]
    cases hsearch : search (direction u s) tree.links [] with
    | none => exact ih'
    | some a =>
      simp only [map_some,bind_some,pick]
      split
      next => rfl
      next => cases hring : a.label.entries.find? (caseSensitiveMatch u s index) with
        | some e => rfl
        | none => exact ih'

/-- A tree of more components than the name holds nothing that matches. -/
theorem TreeOk.lookupIn_eq_none (h : TreeOk u x) (hlt : computeUnicodeNameLength s<x.1) :
    lookupIn u s index x.2=none := by
  have hnone : x.2.find? (fun a => direction u s a = .eq)=none := by
    rw [find?_eq_none]
    intro a ha hdir
    have hb := direction_eq_iff.mp (by simpa using hdir)
    have hle := components_le_of_isPrefix hb.1
    rw [← computeUnicodeNameLength_eq,← computeUnicodeNameLength_eq,(h.node a ha).count] at hle
    omega
  rw [lookupIn,hnone,bind_none]

/-- The answer depends on what the table holds only. -/
theorem Inv.find_eq (h : Inv u t.content) (hplain : ∀ x∈t.content, PlainNodes u x.2)
    (s : List WChar) (index : Nat) :
    (rtlFindUnicodePrefix u t s index).1=lookup u s index t.content := by
  have hmem : ∀ tree∈t.trees, tree.content∈t.content := fun _ => mem_map_of_mem
  have hguided : ∀ tree∈t.trees.dropWhile fun tree => computeUnicodeNameLength s<tree.nameLength,
      Guided (direction u s) tree.links.toList := by
    intro tree htree
    have hcontent := hmem tree ((dropWhile_sublist _).subset htree)
    exact (h.tree _ hcontent).guided (hplain _ hcontent) s
  have hskip : lookup u s index ((t.trees.takeWhile fun tree =>
      computeUnicodeNameLength s<tree.nameLength).map PrefixTree.content)=none := by
    rw [lookup,findSome?_eq_none_iff]
    intro x hx
    obtain ⟨tree,htree,rfl⟩ := mem_map.mp hx
    have hlt : computeUnicodeNameLength s<tree.nameLength := by
      simpa using mem_takeWhile_imp htree
    exact (h.tree _ (hmem tree ((takeWhile_sublist _).subset htree))).lookupIn_eq_none hlt
  have hsplit : t.content =
      (t.trees.takeWhile fun tree => computeUnicodeNameLength s<tree.nameLength).map
          PrefixTree.content ++
        (t.trees.dropWhile fun tree => computeUnicodeNameLength s<tree.nameLength).map
          PrefixTree.content := by
    rw [← map_append,takeWhile_append_dropWhile,content]
  rw [rtlFindUnicodePrefix,findInTrees_eq hguided,hsplit]
  simp only [lookup] at hskip ⊢
  rw [findSome?_append,hskip,none_or]

theorem Table.mem_entries : e∈t.entries ↔ ∃ x∈t.content, ∃ a∈x.2, e∈a.entries := by
  simp [t.entries_eq,entriesOf]

theorem NodeOk.key_eq {n : Nat} (h : NodeOk u n a) (he : e∈a.entries) :
    key u e.name=key u a.owner.name := by
  cases mem_cons.mp he with
  | inl heq => rw [heq]
  | inr he => exact h.ring e he

theorem NoTrailingBackslash.plain (h : NoTrailingBackslash t) (he : e∈t.entries) :
    Plain (key u e.name) := plain_key.mpr (h e he)

theorem NoTrailingBackslash.plainNodes (h : NoTrailingBackslash t) :
    ∀ x∈t.content, PlainNodes u x.2 := fun x hx a ha =>
  h.plain (mem_entries.mpr ⟨x,hx,a,ha,by simp [Node.entries]⟩)

theorem Inv.matches_iff (h : Inv u t.content) (hplain : NoTrailingBackslash t)
    (hx : x∈t.content) (ha : a∈x.2) (he : e∈a.entries) :
    Matches u e.name s ↔ direction u s a = .eq := by
  rw [PrefixTable.matches_iff (hplain.plain (mem_entries.mpr ⟨x,hx,a,ha,he⟩)),
    direction_eq_iff,((h.tree x hx).node a ha).key_eq he]

/-- The answer to a lookup that ignores case: a stored prefix that matches, with the most components
of all of them, or nothing if none matches. -/
def LongestMatch (u : UpcaseTable) (t : Table) (s : List WChar) : Option Entry → Prop
  | none => ∀ e∈t.entries, ¬Matches u e.name s
  | some e => e∈t.entries ∧ Matches u e.name s ∧ ∀ e'∈t.entries, Matches u e'.name s →
      computeUnicodeNameLength e'.name≤computeUnicodeNameLength e.name

theorem lookupIn_zero (l : List Node) :
    lookupIn u s 0 l=(l.find? fun a => direction u s a = .eq).map Node.owner := by
  rw [lookupIn]
  cases l.find? fun a => direction u s a = .eq <;> rfl

theorem lookupIn_zero_ne_none {l : List Node} (ha : a∈l) (hdir : direction u s a = .eq) :
    lookupIn u s 0 l≠none := by
  rw [lookupIn_zero,Ne,map_eq_none_iff,find?_eq_none]
  exact fun hall => hall a ha (by simpa using hdir)

theorem Inv.count_eq (h : Inv u t.content) (hx : x∈t.content)
    (ha : a∈x.2) (he : e∈a.entries) : computeUnicodeNameLength e.name=x.1 := by
  have hok := (h.tree x hx).node a ha
  rw [computeUnicodeNameLength_eq,hok.key_eq he,← computeUnicodeNameLength_eq,hok.count]

theorem Inv.longestMatch (h : Inv u t.content) (hplain : NoTrailingBackslash t) (s : List WChar) :
    LongestMatch u t s (lookup u s 0 t.content) := by
  cases hlookup : lookup u s 0 t.content with
  | none =>
    intro e he hmatch
    obtain ⟨x,hx,a,ha,he⟩ := mem_entries.mp he
    have hdir := (h.matches_iff hplain hx ha he).mp hmatch
    exact lookupIn_zero_ne_none ha hdir (findSome?_eq_none_iff.mp hlookup x hx)
  | some e =>
    obtain ⟨A,x,B,hc,hx,hA⟩ := findSome?_eq_some_iff.mp hlookup
    rw [lookupIn_zero] at hx
    obtain ⟨a,hfind,rfl⟩ := map_eq_some_iff.mp hx
    have hxc : x∈t.content := by simp [hc]
    have ha := mem_of_find?_eq_some hfind
    have hdir : direction u s a = .eq := by simpa using find?_some hfind
    have howner : a.owner∈a.entries := by simp [Node.entries]
    refine ⟨mem_entries.mpr ⟨x,hxc,a,ha,howner⟩,
      (h.matches_iff hplain hxc ha howner).mpr hdir,fun e' he' hmatch => ?_⟩
    obtain ⟨y,hy,b,hb,he'⟩ := mem_entries.mp he'
    rw [h.count_eq hxc ha howner,h.count_eq hy hb he']
    -- the tree of a match is not in front of the one where the lookup ended
    have hdir' := (h.matches_iff hplain hy hb he').mp hmatch
    have hdesc := h.descending
    rw [hc,pairwise_append,pairwise_cons] at hdesc
    rw [hc] at hy
    obtain hy | rfl | hy : y∈A ∨ y=x ∨ y∈B := by simpa using hy
    · exact absurd (hA y hy) (lookupIn_zero_ne_none hb hdir')
    · exact le_rfl
    · exact (hdesc.2.1.1 y hy).le

/-- Longest-prefix lookup: the answer is right, and neither what the table holds nor any later
answer depends on the splaying. -/
theorem rtlFindUnicodePrefix_longest (h : Reachable u t) (hplain : NoTrailingBackslash t)
    (s : List WChar) (hs : s≠[]) :
    LongestMatch u t s (rtlFindUnicodePrefix u t s 0).1 ∧
      (rtlFindUnicodePrefix u t s 0).2.entries=t.entries ∧
      ∀ s' index, (rtlFindUnicodePrefix u (rtlFindUnicodePrefix u t s 0).2 s' index).1 =
        (rtlFindUnicodePrefix u t s' index).1 := by
  have hcontent := content_rtlFindUnicodePrefix (u := u) t s 0
  have hentries : (rtlFindUnicodePrefix u t s 0).2.entries=t.entries := by
    rw [entries_eq,entries_eq,hcontent]
  refine ⟨?_,hentries,fun s' index => ?_⟩
  · rw [h.inv.find_eq hplain.plainNodes]
    exact h.inv.longestMatch hplain s
  · have hplain' : NoTrailingBackslash (rtlFindUnicodePrefix u t s 0).2 := by
      rw [NoTrailingBackslash,hentries]
      exact hplain
    rw [(h.find hs 0).inv.find_eq hplain'.plainNodes,h.inv.find_eq hplain.plainNodes,hcontent]

def twoEntries (e f : Entry) : Table :=
  (rtlInsertUnicodePrefix .ascii (rtlInsertUnicodePrefix .ascii rtlInitializeUnicodePrefix e).2 f).2

theorem reachable_twoEntries {e f : Entry} (he : e.name≠[]) (hf : f.name≠[])
    (hle : e.name.length≤32767) (hlf : f.name.length≤32767) (hid : e.id≠f.id) :
    Reachable .ascii (twoEntries e f) := by
  have hfirst : Reachable .ascii (rtlInsertUnicodePrefix .ascii rtlInitializeUnicodePrefix e).2 :=
    Reachable.start.insert he hle (by simp [rtlInitializeUnicodePrefix,entries])
  refine hfirst.insert hf hlf fun x hx => ?_
  have hx' : x=e := by
    simpa [rtlInsertUnicodePrefix,rtlInitializeUnicodePrefix,insertTree,entries,
      PrefixTree.entries,Node.entries] using hx
  rw [hx']
  exact hid

/-- The prefixes `\` and `\a`, and the name `\A\b`. -/
theorem rtlFindUnicodePrefix_longest_nested :
    LongestMatch .ascii (twoEntries ⟨1,[0x5C]⟩ ⟨2,[0x5C,0x61]⟩) [0x5C,0x41,0x5C,0x62]
        (rtlFindUnicodePrefix .ascii (twoEntries ⟨1,[0x5C]⟩ ⟨2,[0x5C,0x61]⟩)
          [0x5C,0x41,0x5C,0x62] 0).1 ∧
      (rtlFindUnicodePrefix .ascii (twoEntries ⟨1,[0x5C]⟩ ⟨2,[0x5C,0x61]⟩)
        [0x5C,0x41,0x5C,0x62] 0).1=some ⟨2,[0x5C,0x61]⟩ :=
  ⟨(rtlFindUnicodePrefix_longest
    (reachable_twoEntries (by decide) (by decide) (by decide) (by decide) (by decide))
    (by unfold NoTrailingBackslash; decide) [0x5C,0x41,0x5C,0x62] (by decide)).1,by decide⟩

/-- The prefix `a\` hides `a` from a lookup of `a\b`. -/
theorem rtlFindUnicodePrefix_not_longest :
    ∃ t s, Reachable .ascii t ∧ s≠[] ∧
      ¬LongestMatch .ascii t s (rtlFindUnicodePrefix .ascii t s 0).1 := by
  refine ⟨twoEntries ⟨1,[0x61,0x5C]⟩ ⟨2,[0x61]⟩,[0x61,0x5C,0x62],
    reachable_twoEntries (by decide) (by decide) (by decide) (by decide) (by decide),by decide,?_⟩
  intro h
  exact h ⟨2,[0x61]⟩ (by decide) ⟨by decide,by decide⟩

/-- How an answer `o` may change when `e` is removed: nothing else that was found is lost. -/
def AsBefore (e : Entry) (o o' : Option Entry) : Prop :=
  (o=none → o'=none) ∧ ∀ e', o=some e' → e'≠e → o'=some e'

theorem AsBefore.refl (o : Option Entry) : AsBefore e o o := ⟨id,fun _ ho _ => ho⟩

theorem AsBefore.removed : AsBefore e (some e) none :=
  ⟨by simp,fun e' ho hne => absurd (Option.some.inj ho).symm hne⟩

/-- The entry heads a ring, and an entry in front of the last one agrees with it in the case of more
characters. The last one takes the place of the entry, in front of the others. -/
def HeadsMixedRing (t : Table) (e : Entry) : Prop :=
  ∃ tree∈t.trees, ∃ V v, ⟨e,V++[v]⟩∈tree.links.toList ∧
    ∃ w∈V, ∃ i, w.name.take i=v.name.take i ∧ e.name.take i≠v.name.take i

/-- The order of a ring without `e` matters only for lookups that take the last entry and another
one, but not `e`. -/
theorem RingRemoved.pick {n : Nat} {a b : Node} (h : RingRemoved e a b) (ha : NodeOk u n a)
    (hmixed : ∀ V v, a=⟨e,V++[v]⟩ → ∀ w∈V, ∀ i, w.name.take i=v.name.take i →
      e.name.take i=v.name.take i) :
    AsBefore e (pick u s index a) (pick u s index b) := by
  constructor
  · intro hnone
    rw [PrefixTable.pick] at hnone ⊢
    split at hnone
    next => simp at hnone
    next hindex =>
      rw [if_neg hindex,find?_eq_none]
      rw [find?_eq_none] at hnone
      exact fun e' he' => hnone e' (h.perm.mem_iff.mpr (by simp [he']))
  · intro e' hpick hne
    rw [PrefixTable.pick] at hpick ⊢
    cases h with
    | variant o V W =>
      split at hpick
      next hindex => rwa [if_pos hindex]
      next hindex =>
        rw [if_neg hindex]
        have hring : ((o::V)++e::W).find? (caseSensitiveMatch u s index)=some e' := hpick
        rw [find?_append] at hring
        change ((o::V)++W).find? (caseSensitiveMatch u s index)=some e'
        rw [find?_append]
        cases hfront : (o::V).find? (caseSensitiveMatch u s index) with
        | some f => rwa [hfront,some_or] at hring
        | none =>
          rw [hfront,none_or,find?_cons] at hring
          split at hring
          · exact absurd (Option.some.inj hring).symm hne
          · rwa [none_or]
    | owner v V =>
      split at hpick
      next => exact absurd (Option.some.inj hpick).symm hne
      next hindex =>
        rw [if_neg hindex]
        rw [Node.entries,find?_cons] at hpick
        split at hpick
        · exact absurd (Option.some.inj hpick).symm hne
        next hmatch =>
        have hkey : ∀ w∈V++[v], key u w.name=key u e.name := ha.ring
        rw [find?_append] at hpick
        rw [Node.entries,find?_cons]
        split
        next hv =>
          -- no other entry that is taken is in front of the last one
          have hnone : V.find? (caseSensitiveMatch u s index)=none := by
            rw [find?_eq_none]
            intro w hw hwmatch
            have hvk := hkey v (by simp)
            have hsame := (caseSensitiveMatch_congr ((hkey w (by simp [hw])).trans hvk.symm) hv).mp
              hwmatch
            have htake := hmixed V v rfl w hw index hsame
            have hematch := (caseSensitiveMatch_congr hvk.symm hv).mpr htake
            rw [hmatch] at hematch
            exact Bool.noConfusion hematch
          rw [hnone,none_or,find?_singleton,if_pos hv] at hpick
          exact hpick
        next hv =>
          cases hfront : V.find? (caseSensitiveMatch u s index) with
          | some f => rwa [hfront,some_or] at hpick
          | none =>
            rw [hfront,none_or,find?_singleton,if_neg (by simp [hv])] at hpick
            exact absurd hpick (by simp)

/-- The lookup in the tree that loses the entry. -/
theorem Removed.lookupIn {k : Nat} {l l' : List Node} (h : Removed e l l') (hl : TreeOk u (k, l))
    (hguided : Guided (direction u s) l)
    (hmixed : ∀ V v, ⟨e,V++[v]⟩∈l → ∀ w∈V, ∀ i, w.name.take i=v.name.take i →
      e.name.take i=v.name.take i) :
    AsBefore e (lookupIn u s index l) (lookupIn u s index l') := by
  cases h with
  | @ring a b h X Y =>
    have ha : NodeOk u k a := hl.node a (by simp)
    have hdir : direction u s b = .eq ↔ direction u s a = .eq := by
      rw [direction_eq_iff,direction_eq_iff,h.key_eq ha]
    simp only [PrefixTable.lookupIn,find?_append]
    cases X.find? fun a => direction u s a = .eq with
    | some c => exact .refl _
    | none =>
      simp only [none_or,find?_cons,hdir]
      by_cases hc : direction u s a = .eq
      · simpa [hc] using h.pick ha fun V v heq => hmixed V v (by simp [heq])
      · simpa [hc] using AsBefore.refl _
  | node X Y =>
    simp only [PrefixTable.lookupIn,find?_append]
    cases X.find? fun a => direction u s a = .eq with
    | some c => exact .refl _
    | none =>
      simp only [none_or,find?_cons]
      by_cases hc : direction u s ⟨e,[]⟩ = .eq
      · -- whatever stands behind a match is greater than the name
        have hY : Y.find? (fun a => direction u s a = .eq)=none := by
          rw [Guided,pairwise_append,pairwise_cons] at hguided
          rw [find?_eq_none]
          intro c hmem
          simp [hguided.2.1.1 c hmem (by simp [hc])]
        simp only [hc,decide_true,hY,bind_none,bind_some]
        cases hpick : pick u s index ⟨e,[]⟩ with
        | none => exact .refl _
        | some e' =>
          obtain rfl : e'=e := by simpa [Node.entries] using mem_of_pick hpick
          exact .removed
      · simpa [hc] using AsBefore.refl _

theorem AsBefore.or {o o' : Option Entry} (h : AsBefore e o o') (p q : Option Entry) :
    AsBefore e (p.or (o.or q)) (p.or (o'.or q)) := by
  cases p with
  | some x => exact .refl _
  | none =>
    simp only [none_or]
    cases o with
    | none =>
      rw [h.1 rfl]
      exact .refl _
    | some x =>
      refine ⟨by simp,fun e' he' hne => ?_⟩
      rw [h.2 e' he' hne,some_or]

theorem lookup_append (A B : List TreeContent) :
    lookup u s index (A++B)=(lookup u s index A).or (lookup u s index B) :=
  findSome?_append

theorem lookup_cons (x : TreeContent) (B : List TreeContent) :
    lookup u s index (x::B)=(lookupIn u s index x.2).or (lookup u s index B) := by
  rw [lookup,findSome?_cons]
  cases lookupIn u s index x.2 <;> rfl

theorem TableRemoved.lookup {c c' : List TreeContent} (h : TableRemoved e c c') (hc : Inv u c)
    (hplain : ∀ x∈c, PlainNodes u x.2)
    (hmixed : ∀ x∈c, ∀ V v, ⟨e,V++[v]⟩∈x.2 → ∀ w∈V, ∀ i, w.name.take i=v.name.take i →
      e.name.take i=v.name.take i) :
    AsBefore e (lookup u s index c) (lookup u s index c') := by
  obtain ⟨A,k,l,l',B,rfl,hrem,hc'⟩ := h
  have hl : TreeOk u (k, l) := hc.tree _ (by simp)
  have hbefore : AsBefore e (lookupIn u s index l) (lookupIn u s index l') :=
    hrem.lookupIn hl (hl.guided (hplain (k, l) (by simp)) s) (hmixed (k, l) (by simp))
  have heq : PrefixTable.lookup u s index c' =
      (PrefixTable.lookup u s index A).or
        ((PrefixTable.lookupIn u s index l').or (PrefixTable.lookup u s index B)) := by
    obtain ⟨-,rfl⟩ | ⟨rfl,rfl⟩ := hc'
    · rw [lookup_append,lookup_cons]
    · rw [lookup_append]
      rfl
  rw [heq,lookup_append,lookup_cons]
  exact hbefore.or _ _

theorem mem_of_lookup {c : List TreeContent} (h : lookup u s index c=some e) : e∈entriesOf c := by
  obtain ⟨x,hx,hin⟩ := exists_of_findSome?_eq_some h
  obtain ⟨a,hfind,hpick⟩ := bind_eq_some_iff.mp hin
  refine mem_flatMap.mpr ⟨x,hx,mem_flatMap.mpr ⟨a,?_,mem_of_pick hpick⟩⟩
  exact mem_of_find?_eq_some hfind

/-- The removal of `e` ends, no lookup returns `e` afterwards, and all other answers are as
before. -/
def RemovedExactly (u : UpcaseTable) (t : Table) (e : Entry) : Prop :=
  ∃ fuel t', rtlRemoveUnicodePrefix fuel t e.id=some t' ∧ t.entries.Perm (e::t'.entries) ∧
    ∀ s index, (rtlFindUnicodePrefix u t' s index).1≠some e ∧
      AsBefore e (rtlFindUnicodePrefix u t s index).1
        (rtlFindUnicodePrefix u t' s index).1

/-- Nodes of one key are one node. -/
theorem Inv.node_unique {c : List TreeContent} (h : Inv u c) {x y : TreeContent} {a b : Node}
    (hx : x∈c) (hy : y∈c) (ha : a∈x.2) (hb : b∈y.2)
    (hkey : key u a.owner.name=key u b.owner.name) : a=b := by
  have hcount : x.1=y.1 := by
    rw [← ((h.tree x hx).node a ha).count,← ((h.tree y hy).node b hb).count,
      computeUnicodeNameLength_eq (u := u),computeUnicodeNameLength_eq (u := u),hkey]
  have hnd : (c.map Prod.fst).Nodup := pairwise_map.mpr (h.descending.imp fun hlt => hlt.ne')
  obtain rfl : x=y := inj_on_of_nodup_map hnd hx hy hcount
  have hnodes : (x.2.map fun a => key u a.owner.name).Nodup :=
    pairwise_map.mpr ((h.tree x hx).sorted.imp fun hlt => hlt.ne)
  exact inj_on_of_nodup_map hnodes ha hb hkey

/-- The lookup of a name that is in the table comes to the ring of the name. -/
theorem Inv.lookup_eq {c : List TreeContent} (h : Inv u c) (hplain : ∀ x∈c, PlainNodes u x.2)
    {a : Node} {w : Entry} (hx : x∈c) (ha : a∈x.2) (he : e∈a.entries)
    (hpick : pick u e.name index a=some w) : lookup u e.name index c=some w := by
  have hok := (h.tree x hx).node a ha
  have hkey := hok.key_eq he
  have hcount : computeUnicodeNameLength e.name=x.1 := by
    rw [computeUnicodeNameLength_eq (u := u),hkey,← computeUnicodeNameLength_eq,hok.count]
  have hdir : direction u e.name a = .eq := by
    rw [direction_eq_iff,← hkey]
    exact ⟨prefix_refl _,.inl rfl⟩
  have hguided := (h.tree x hx).guided (hplain x hx) e.name
  obtain ⟨X,Y,hsplit⟩ := append_of_mem ha
  have hin : lookupIn u e.name index x.2=some w := by
    have hX : X.find? (fun a => direction u e.name a = .eq)=none := by
      rw [find?_eq_none]
      intro b hb heq
      rw [Guided,hsplit,pairwise_append] at hguided
      have hgt := hguided.2.2 b hb a (by simp) (by simp [of_decide_eq_true heq])
      rw [hdir] at hgt
      cases hgt
    rw [lookupIn,hsplit,find?_append,hX,none_or,find?_cons_of_pos (by simp [hdir]),bind_some,hpick]
  obtain ⟨A,B,rfl⟩ := append_of_mem hx
  have hdesc := h.descending
  rw [pairwise_append] at hdesc
  have hA : lookup u e.name index A=none := by
    rw [lookup,findSome?_eq_none_iff]
    intro y hy
    refine (h.tree y (by simp [hy])).lookupIn_eq_none ?_
    rw [hcount]
    exact hdesc.2.2 y hy x (by simp)
  rw [lookup_append,hA,none_or,lookup_cons,hin,some_or]

/-- On a mixed ring the last entry is found in the place of another one. -/
theorem Inv.not_asBefore (h : Inv u t.content) (hplain : NoTrailingBackslash t)
    (hplain' : NoTrailingBackslash t') (hremoved : TableRemoved e t.content t'.content)
    (hmixed : HeadsMixedRing t e) :
    ∃ s index, ¬AsBefore e (lookup u s index t.content) (lookup u s index t'.content) := by
  obtain ⟨tree,htree,V,v,hnode,w,hw,i,hsame,hdiff⟩ := hmixed
  have hx : tree.content∈t.content := mem_map_of_mem htree
  have hok := (h.tree _ hx).node _ hnode
  have hkey : ∀ f∈V++[v], key u f.name=key u e.name := hok.ring
  have hindex : i≠0 := by
    rintro rfl
    simp at hdiff
  -- what is left of the node
  have hnode' : ∃ x∈t'.content, ⟨v,V⟩∈x.2 := by
    obtain ⟨A,k,l,l',B,hc,hrem,hc'⟩ := hremoved
    have hl : (k, l)∈t.content := by simp [hc]
    have hunique : ∀ {a : Node}, a∈l → e∈a.entries → a=⟨e,V++[v]⟩ := fun ha he =>
      h.node_unique hl hx ha hnode (((h.tree _ hl).node _ ha).key_eq he).symm
    cases hrem with
    | @ring a b hring X Y =>
      have ha := hunique (a := a) (by simp) (hring.perm.mem_iff.mpr mem_cons_self)
      cases hring with
      | variant o V' W =>
        rw [Node.mk.injEq] at ha
        have hdistinct := hok.distinct
        rw [← ha.2,Node.entries,map_cons,nodup_cons] at hdistinct
        exact absurd (by simp) hdistinct.1
      | owner v' V' =>
        rw [Node.mk.injEq] at ha
        obtain ⟨rfl,hv⟩ := append_inj' ha.2 rfl
        obtain rfl : v'=v := by simpa using hv
        obtain ⟨-,hc'⟩ | ⟨hnil,-⟩ := hc'
        · exact ⟨(k, X++⟨v',V'⟩::Y),by simp [hc'],by simp⟩
        · simp at hnil
    | node X Y =>
      have ha := hunique (a := ⟨e,[]⟩) (by simp) (by simp [Node.entries])
      simp at ha
  obtain ⟨x',hx',hnode'⟩ := hnode'
  have hafter : lookup u v.name i t'.content=some v := by
    refine (hremoved.inv h).lookup_eq hplain'.plainNodes hx' hnode' (by simp [Node.entries]) ?_
    rw [pick,if_neg hindex,Node.entries,find?_cons_of_pos (caseSensitiveMatch_self i v)]
  have hself : caseSensitiveMatch u v.name i v=true := caseSensitiveMatch_self i v
  have hvk := hkey v (by simp)
  obtain ⟨f,hf⟩ := isSome_iff_exists.mp (find?_isSome.mpr ⟨w,hw,
    (caseSensitiveMatch_congr ((hkey w (by simp [hw])).trans hvk.symm) hself).mpr hsame⟩)
  have hbefore : lookup u v.name i t.content=some f := by
    refine h.lookup_eq hplain.plainNodes hx hnode (by simp [Node.entries]) ?_
    have hrefused : ¬caseSensitiveMatch u v.name i e=true := fun hmatch =>
      hdiff ((caseSensitiveMatch_congr hvk.symm hself).mp hmatch)
    rw [pick,if_neg hindex,Node.entries,find?_cons_of_neg hrefused,find?_append,hf,some_or]
  refine ⟨v.name,i,fun hbad => ?_⟩
  have hfV := mem_of_find?_eq_some hf
  have hnd : (e::(V++[v])).Nodup := hok.distinct.of_map
  have hfe : f≠e := by
    rintro rfl
    exact (nodup_cons.mp hnd).1 (by simp [hfV])
  have hequal := hbad.2 f hbefore hfe
  rw [hafter,Option.some_inj] at hequal
  exact (nodup_append.mp (nodup_cons.mp hnd).2).2.2 f hfV v (by simp) hequal.symm

/-- Prefix removal is exact, unless the entry heads a ring of case variants at the root of its tree,
where the search for the entry in front of it on the ring of roots does not end, or a ring on which
the last entry then hides another one. -/
theorem rtlRemoveUnicodePrefix_exact_iff (h : Reachable u t) (hplain : NoTrailingBackslash t)
    (he : e∈t.entries) : RemovedExactly u t e ↔ ¬HeadsRootRing t e ∧ ¬HeadsMixedRing t e := by
  have hafter : ∀ {fuel t'}, rtlRemoveUnicodePrefix fuel t e.id=some t' →
      t.entries.Perm (e::t'.entries) ∧ NoTrailingBackslash t' := by
    intro fuel t' hremove
    have hperm : t.entries.Perm (e::t'.entries) := by
      rw [entries_eq,entries_eq]
      exact (h.inv.tableRemoved he hremove).perm
    exact ⟨hperm,fun x hx => hplain x (hperm.mem_iff.mpr (mem_cons_of_mem e hx))⟩
  constructor
  · rintro ⟨fuel,t',hremove,-,hfind⟩
    refine ⟨fun hroot => ?_,fun hmixed => ?_⟩
    · rw [h.inv.rtlRemoveUnicodePrefix_eq_none he hroot] at hremove
      simp at hremove
    · have hremoved := h.inv.tableRemoved he hremove
      have hplain' := (hafter hremove).2
      obtain ⟨s,index,hbad⟩ := h.inv.not_asBefore hplain hplain' hremoved hmixed
      refine hbad ?_
      rw [← h.inv.find_eq hplain.plainNodes,← (hremoved.inv h.inv).find_eq hplain'.plainNodes]
      exact (hfind s index).2
  · rintro ⟨hroot,hmixed⟩
    obtain ⟨fuel,t',hremove⟩ := h.inv.exists_rtlRemoveUnicodePrefix he hroot
    have hremoved := h.inv.tableRemoved he hremove
    obtain ⟨hperm,hplain'⟩ := hafter hremove
    refine ⟨fuel,t',hremove,hperm,fun s index => ?_⟩
    rw [h.inv.find_eq hplain.plainNodes,(hremoved.inv h.inv).find_eq hplain'.plainNodes]
    refine ⟨fun hfind => ?_,hremoved.lookup h.inv hplain.plainNodes ?_⟩
    · have hids := h.inv.ids
      rw [(hremoved.perm.map Entry.id).nodup_iff,map_cons,nodup_cons] at hids
      exact hids.1 (mem_map_of_mem (mem_of_lookup hfind))
    · intro x hx V v hnode w hw i hsame
      obtain ⟨tree,htree,rfl⟩ := mem_map.mp hx
      by_contra hdiff
      exact hmixed ⟨tree,htree,V,v,hnode,w,hw,i,hsame,hdiff⟩

/-- The case variant `A` of the prefix `a` can be removed. -/
theorem rtlRemoveUnicodePrefix_exact_variant :
    ¬HeadsRootRing (twoEntries ⟨1,[0x61]⟩ ⟨2,[0x41]⟩) ⟨2,[0x41]⟩ ∧
      RemovedExactly .ascii (twoEntries ⟨1,[0x61]⟩ ⟨2,[0x41]⟩) ⟨2,[0x41]⟩ := by
  have hroot : ¬HeadsRootRing (twoEntries ⟨1,[0x61]⟩ ⟨2,[0x41]⟩) ⟨2,[0x41]⟩ := by
    intro h
    obtain ⟨tree,htree,a,ha,howner,-⟩ := h
    have hall : ∀ tree∈(twoEntries ⟨1,[0x61]⟩ ⟨2,[0x41]⟩).trees,
        tree.links.root.map Node.owner≠some ⟨2,[0x41]⟩ := by decide
    exact hall tree htree (by rw [ha,map_some,howner])
  have hmixed : ¬HeadsMixedRing (twoEntries ⟨1,[0x61]⟩ ⟨2,[0x41]⟩) ⟨2,[0x41]⟩ := by
    intro h
    obtain ⟨tree,htree,V,v,hnode,-⟩ := h
    have hall : ∀ tree∈(twoEntries ⟨1,[0x61]⟩ ⟨2,[0x41]⟩).trees, ∀ a∈tree.links.toList,
        a.owner≠⟨2,[0x41]⟩ := by decide
    exact hall tree htree _ hnode rfl
  exact ⟨hroot,(rtlRemoveUnicodePrefix_exact_iff
    (reachable_twoEntries (by decide) (by decide) (by decide) (by decide) (by decide))
    (by unfold NoTrailingBackslash; decide) (by decide)).mpr ⟨hroot,hmixed⟩⟩

/-- The prefix `a` itself cannot, as long as its variant is there. -/
theorem rtlRemoveUnicodePrefix_not_exact :
    ∃ t e, Reachable .ascii t ∧ e∈t.entries ∧ ¬RemovedExactly .ascii t e := by
  have hreach : Reachable .ascii (twoEntries ⟨1,[0x61]⟩ ⟨2,[0x41]⟩) :=
    reachable_twoEntries (by decide) (by decide) (by decide) (by decide) (by decide)
  have hmem : ⟨1,[0x61]⟩∈(twoEntries ⟨1,[0x61]⟩ ⟨2,[0x41]⟩).entries := by decide
  refine ⟨twoEntries ⟨1,[0x61]⟩ ⟨2,[0x41]⟩,⟨1,[0x61]⟩,hreach,hmem,fun h => ?_⟩
  obtain ⟨fuel,t',hremove,-⟩ := h
  have hroot : HeadsRootRing (twoEntries ⟨1,[0x61]⟩ ⟨2,[0x41]⟩) ⟨1,[0x61]⟩ :=
    ⟨⟨1,.node .nil ⟨⟨1,[0x61]⟩,[⟨2,[0x41]⟩]⟩ .nil⟩,by decide,
      ⟨⟨1,[0x61]⟩,[⟨2,[0x41]⟩]⟩,rfl,rfl,by decide⟩
  rw [hreach.inv.rtlRemoveUnicodePrefix_eq_none hmem hroot] at hremove
  simp at hremove

end Odyssey.Rtl.PrefixTable
