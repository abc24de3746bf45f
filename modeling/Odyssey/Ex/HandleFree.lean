import Odyssey.Ex.HandleTable

/-! The free handles of a table. They are on two chains through the entries; every handle is on
one of them or live. -/
namespace Odyssey.Ex
open LinkedList Function List HandleTable

def entryPtr (low : Nat → Nat) (h : Nat) : EntryPtr := ⟨low (h/2048),h%2048*2⟩

def HandleTable.entryOf (t : HandleTable) (low : Nat → Nat) (h : Nat) : Entry :=
  t.entry (entryPtr low h)

def HandleTable.IsHandle (t : HandleTable) (h : Nat) : Prop :=
  h%4=0 ∧ h<t.nextHandleNeedingPool ∧ h/4%512≠0

/-- An entry that a caller may give: an object, with the lock bit clear. -/
def Entry.Valid (e : Entry) : Prop := e.object≠0 ∧ e.object &&& 1=0

abbrev HandleTable.FreeChain (t : HandleTable) (low : Nat → Nat) (head : Nat) (l : List Nat) :
    Prop :=
  Chain 0 id (fun h => (t.entryOf low h).nextFreeTableEntry) head l

structure TableInv (t : HandleTable) (low : Nat → Nat) (count : Nat) (F L : List Nat)
    (live : List (Nat × Entry)) : Prop where
  paged : Paged t low count
  strict : t.strictFIFO=false
  first : t.FreeChain low t.firstFree F
  last : t.FreeChain low t.lastFree L
  nodup : (F++L++live.map Prod.fst).Nodup
  mem : ∀ h, h∈F++L++live.map Prod.fst ↔ t.IsHandle h
  free : ∀ h∈F++L, (t.entryOf low h).object=0
  reserved : ∀ i<count, (t.mem.entries (low i) 0).object=0
  held : ∀ p∈live, t.entryOf low p.1={ p.2 with object := p.2.object ||| 1 }
  valid : ∀ p∈live, p.2.Valid
  handleCount : t.handleCount=live.length

section Entries
variable {t t' : HandleTable} {m m' : Memory} {low : Nat → Nat} {count code h h' : Nat}
  {e : Entry}

theorem Levels.congr (hl : Levels m low count code) (hp : m'.pointers=m.pointers)
    (hs : m'.supply=m.supply) (ht : m'.taken=m.taken) : Levels m' low count code := by
  obtain ⟨entries,pointers,supply,taken⟩ := m
  obtain ⟨entries',pointers',supply',taken'⟩ := m'
  obtain rfl : pointers'=pointers := hp
  obtain rfl : supply'=supply := hs
  obtain rfl : taken'=taken := ht
  cases hl with
  | one hc => exact .one hc
  | two mid h1 hc hu hm => exact .two mid h1 hc hu hm
  | three high mid h1 hu hh =>
    exact .three high mid h1 hu ⟨hh.pointers,hh.used,hh.ne_high,hh.injective,hh.mids⟩

theorem Paged.setEntry (hp : Paged t low count) (p : EntryPtr) (e : Entry) :
    Paged (t.setEntry p e) low count :=
  ⟨hp.pool,hp.next,hp.pos,hp.le,hp.used,hp.injective,hp.levels.congr rfl rfl rfl⟩

theorem Paged.lookup_eq (hp : Paged t low count) (handle : Nat) :
    t.expLookupHandleTableEntry handle =
      if handle/4*4<t.nextHandleNeedingPool then some (entryPtr low (handle/4*4))
      else none := by
  rw [hp.lookup,entryPtr,show handle/4*4/2048=handle/2048 by omega]

theorem Paged.lookup_handle (hp : Paged t low count) (hh : t.IsHandle h) :
    t.expLookupHandleTableEntry h=some (entryPtr low h) := by
  obtain ⟨h4,hlt,-⟩ := hh
  rw [hp.lookup_eq,show h/4*4=h by omega,if_pos hlt]

theorem Paged.entryPtr_injective (hp : Paged t low count) (h4 : h%4=0)
    (hlt : h<t.nextHandleNeedingPool) (h4' : h'%4=0) (hlt' : h'<t.nextHandleNeedingPool)
    (he : entryPtr low h=entryPtr low h') : h=h' := by
  obtain ⟨h1,h2⟩ := EntryPtr.mk.inj he
  have hnext := hp.next
  have := hp.injective _ _ (by omega) (by omega) h1
  omega

theorem HandleTable.entry_setEntry_self (t : HandleTable) (p : EntryPtr) (e : Entry) :
    (t.setEntry p e).entry p=e := by
  simp [setEntry,entry]

theorem HandleTable.entry_setEntry_of_ne (t : HandleTable) {p q : EntryPtr} (e : Entry)
    (hne : q≠p) : (t.setEntry p e).entry q=t.entry q := by
  have : ¬(q.table=p.table ∧ q.offset=p.offset) := fun hq => by
    exact hne (by rw [EntryPtr.mk.injEq]; exact hq)
  simp [setEntry,entry,this]

theorem HandleTable.setEntry_setEntry (t : HandleTable) (p : EntryPtr) (e e' : Entry) :
    (t.setEntry p e).setEntry p e'=t.setEntry p e' := by
  simp only [setEntry,Memory.setEntry,HandleTable.mk.injEq,Memory.mk.injEq,true_and,and_true]
  funext b o
  by_cases hbo : b=p.table ∧ o=p.offset
  · rw [if_pos hbo,if_pos hbo]
  · rw [if_neg hbo,if_neg hbo,if_neg hbo]

theorem Paged.entryOf_setEntry (hp : Paged t low count) (hmem : t'.mem=t.mem)
    (hh : t.IsHandle h) (hh' : t.IsHandle h') (hne : h'≠h) :
    (t'.setEntry (entryPtr low h) e).entryOf low h'=t.entryOf low h' := by
  have hptr : entryPtr low h'≠entryPtr low h := fun he =>
    hne (hp.entryPtr_injective hh'.1 hh'.2.1 hh.1 hh.2.1 he)
  rw [entryOf,t'.entry_setEntry_of_ne e hptr,entry,hmem]
  rfl

/-- The entries that are never handles are kept. -/
theorem HandleTable.IsHandle.entries_setEntry (hh : t.IsHandle h) (i : Nat) :
    (t.setEntry (entryPtr low h) e).mem.entries (low i) 0=t.mem.entries (low i) 0 := by
  refine t.entry_setEntry_of_ne e (q := ⟨low i,0⟩) fun he => ?_
  obtain ⟨-,h2⟩ := EntryPtr.mk.inj he
  obtain ⟨h4,-,h512⟩ := hh
  omega

end Entries

section Lists
variable {t t' : HandleTable} {low : Nat → Nat} {count h v : Nat} {F L : List Nat}
  {live : List (Nat × Entry)} {e : Entry}
  {l : List Nat} {t₁ : HandleTable} {head : Nat} {link : Nat → Nat} {F' L' : List Nat} {m : Memory}

section

variable (hi : TableInv t low count F L live)
include hi

theorem TableInv.isHandle (hl : ∀ x∈l, x∈F++L) (hv : v∈l) : t.IsHandle v :=
  (hi.mem v).mp (mem_append_left _ (hl v hv))

theorem TableInv.isHandle_live {p : Nat × Entry} (hp : p∈live) : t.IsHandle p.1 :=
  (hi.mem p.1).mp (mem_append_right _ (mem_map_of_mem hp))

/-- The entry of the handle `v` is written, and `v` moves to or from the live handles. -/
theorem TableInv.write
    {live' : List (Nat × Entry)} (hv : t.IsHandle v) (hmem : t'.mem=t.mem)
    (hcode : t'.tableCode=t.tableCode) (hnext : t'.nextHandleNeedingPool=t.nextHandleNeedingPool)
    (hstrict : t'.strictFIFO=false)
    (hperm : (F'++L'++live'.map Prod.fst).Perm (F++L++live.map Prod.fst))
    (hfirst : (t'.setEntry (entryPtr low v) e).FreeChain low t'.firstFree F')
    (hlast : (t'.setEntry (entryPtr low v) e).FreeChain low t'.lastFree L')
    (hfree : ∀ h∈F'++L', h∈F++L ∧ h≠v ∨ h=v ∧ e.object=0)
    (hheld : ∀ p∈live', p∈live ∧ p.1≠v ∨ p.1=v ∧ p.2.Valid ∧
      e={ p.2 with object := p.2.object ||| 1 })
    (hcount : t'.handleCount=live'.length) :
    TableInv (t'.setEntry (entryPtr low v) e) low count F' L' live' := by
  have hp : Paged t' low count :=
    ⟨hmem ▸ hi.paged.pool,hnext ▸ hi.paged.next,hi.paged.pos,hi.paged.le,hmem ▸ hi.paged.used,
      hi.paged.injective,by rw [hmem,hcode]; exact hi.paged.levels⟩
  have hv' : t'.IsHandle v := by
    rw [HandleTable.IsHandle,hnext]
    exact hv
  have hsame : ∀ h, t.IsHandle h → h≠v →
      (t'.setEntry (entryPtr low v) e).entryOf low h=t.entryOf low h := fun h hh hne =>
    hi.paged.entryOf_setEntry hmem hv hh hne
  have hself : (t'.setEntry (entryPtr low v) e).entryOf low v=e := t'.entry_setEntry_self _ _
  refine ⟨hp.setEntry _ _,hstrict,hfirst,hlast,hperm.nodup_iff.mpr hi.nodup,?_,?_,?_,?_,?_,hcount⟩
  · intro h
    rw [hperm.mem_iff,hi.mem,HandleTable.IsHandle]
    show _ ↔ _ ∧ h<t'.nextHandleNeedingPool ∧ _
    rw [hnext]
  · intro h hh
    obtain ⟨hold,hne⟩ | ⟨rfl,hobj⟩ := hfree h hh
    · rw [hsame h ((hi.mem h).mp (mem_append_left _ hold)) hne]
      exact hi.free h hold
    · rw [hself]
      exact hobj
  · intro i hic
    rw [hv'.entries_setEntry,hmem]
    exact hi.reserved i hic
  · intro p hpl
    obtain ⟨hold,hne⟩ | ⟨hpv,-,hpe⟩ := hheld p hpl
    · rw [hsame p.1 (hi.isHandle_live hold) hne]
      exact hi.held p hold
    · rw [hpv,hself]
      exact hpe
  · intro p hpl
    obtain ⟨hold,-⟩ | ⟨-,hval,-⟩ := hheld p hpl
    · exact hi.valid p hold
    · exact hval

section
variable (hmem : t'.mem=t.mem) (hv : t.IsHandle v) (hl : ∀ x∈l, x∈F++L) (hvl : v∉l)
  (hc : t.FreeChain low head l)
include hmem hv hl hvl hc

theorem TableInv.chain_write : (t'.setEntry (entryPtr low v) e).FreeChain low head l := by
  refine hc.congr fun x hx => ?_
  rw [hi.paged.entryOf_setEntry hmem hv (hi.isHandle hl hx)]
  intro hxv
  exact hvl (hxv ▸ hx)

theorem TableInv.chain_push (hpos : v≠0) :
    (t'.setEntry (entryPtr low v) ⟨0,head⟩).FreeChain low v (v::l) := by
  have hself : (t'.setEntry (entryPtr low v) ⟨0,head⟩).entryOf low v=⟨0,head⟩ :=
    t'.entry_setEntry_self _ _
  refine ⟨rfl,hpos,?_⟩
  dsimp only
  rw [hself]
  exact hi.chain_write hmem hv hl hvl hc

end

end

/-- The first free handle becomes live. -/
theorem TableInv.take (hi : TableInv t low count (v::F) L live) (he : e.Valid) :
    TableInv (({ t with
        firstFree := (t.entryOf low v).nextFreeTableEntry
        handleCount := t.handleCount+1 } : HandleTable).setEntry (entryPtr low v)
          { e with object := e.object ||| 1 }) low count F L ((v, e)::live) := by
  have hperm : (F++L++v::live.map Prod.fst).Perm (v::F++L++live.map Prod.fst) :=
    perm_middle
  have hnodup := hi.nodup
  rw [cons_append,cons_append] at hnodup
  have hvnot : v∉F ∧ v∉L ∧ v∉live.map Prod.fst := by
    simpa only [mem_append,not_or,and_assoc] using (nodup_cons.mp hnodup).1
  have hv : t.IsHandle v := hi.isHandle (l := [v]) (by simp) (by simp)
  refine hi.write hv rfl rfl rfl hi.strict hperm ?_ ?_ ?_ ?_ ?_
  · exact hi.chain_write rfl hv (fun x hx => by simp [hx]) hvnot.1 hi.first.2.2
  · exact hi.chain_write rfl hv (fun x hx => by simp [hx]) hvnot.2.1 hi.last
  · intro h hh
    refine .inl ⟨mem_cons_of_mem _ hh,fun hhv => ?_⟩
    rw [hhv,mem_append] at hh
    obtain hh | hh := hh
    · exact hvnot.1 hh
    · exact hvnot.2.1 hh
  · intro p hp
    obtain rfl | hp := mem_cons.mp hp
    · exact .inr ⟨rfl,he,rfl⟩
    · exact .inl ⟨hp,fun hpv => hvnot.2.2 (hpv ▸ mem_map_of_mem hp)⟩
  · have := hi.handleCount
    simp [this]

/-- Taking a handle out of the live ones. -/
theorem perm_filter_live (hn : (live.map Prod.fst).Nodup) (hv : v∈live.map Prod.fst) :
    (v::(live.filter (·.1≠v)).map Prod.fst).Perm (live.map Prod.fst) := by
  have hmap : (live.filter (·.1≠v)).map Prod.fst=(live.map Prod.fst).erase v := by
    rw [hn.erase_eq_filter,filter_map]
    congr 1
    exact filter_congr fun p _ => (Bool.not_eq_eq_eq_not.mpr (by simp [BEq.beq])).symm
  rw [hmap]
  exact (perm_cons_erase hv).symm

/-- A live handle becomes free, on one of the chains. -/
theorem TableInv.release (hi : TableInv t low count F L live) (hp : (v, e)∈live)
    {old : Nat} (hmem : t'.mem=t.mem) (hcode : t'.tableCode=t.tableCode)
    (hnext : t'.nextHandleNeedingPool=t.nextHandleNeedingPool) (hstrict : t'.strictFIFO=false)
    (hcount : t'.handleCount=t.handleCount-1) (hlists : (F'++L').Perm (v::(F++L)))
    (hfirst : (t'.setEntry (entryPtr low v) ⟨0,old⟩).FreeChain low t'.firstFree F')
    (hlast : (t'.setEntry (entryPtr low v) ⟨0,old⟩).FreeChain low t'.lastFree L') :
    TableInv (t'.setEntry (entryPtr low v) ⟨0,old⟩) low count F' L' (live.filter (·.1≠v)) := by
  have hvlive : v∈live.map Prod.fst := mem_map_of_mem hp
  have hnodup := nodup_append.mp hi.nodup
  have hvnot : v∉F++L := fun hm => hnodup.2.2 v hm v hvlive rfl
  have hperm := perm_filter_live hnodup.2.1 hvlive
  have hall : (F'++L'++(live.filter (·.1≠v)).map Prod.fst).Perm
      (F++L++live.map Prod.fst) :=
    (hlists.append_right _).trans (perm_middle.symm.trans (hperm.append_left _))
  refine hi.write (hi.isHandle_live hp) hmem hcode hnext hstrict hall hfirst hlast ?_ ?_ ?_
  · intro h hh
    obtain rfl | hh := mem_cons.mp (hlists.mem_iff.mp hh)
    · exact .inr ⟨rfl,rfl⟩
    · exact .inl ⟨hh,fun hhv => hvnot (hhv ▸ hh)⟩
  · intro p hp
    exact .inl (by simpa using mem_filter.mp hp)
  · have hlen := hperm.length_eq
    rw [length_cons,length_map,length_map] at hlen
    have := hi.handleCount
    omega

theorem TableInv.next_pos (hi : TableInv t low count F L live) : 0<t.nextHandleNeedingPool := by
  have := hi.paged.next
  have := hi.paged.pos
  omega

/-- The links are in range, as the code asserts. -/
theorem TableInv.head_lt (hi : TableInv t low count F L live)
    (hl : ∀ x∈l, x∈F++L) (hc : Chain 0 id link head l) :
    head<t.nextHandleNeedingPool := by
  cases l with
  | nil =>
    have h0 : head=0 := hc
    have := hi.next_pos
    omega
  | cons x l =>
    have hx : head=x := hc.1
    have := (hi.isHandle hl (mem_cons_self (l := l))).2.1
    omega

theorem expFreeHandleTableEntry_eq {handle : Nat} {p : EntryPtr} (ho : (t.entry p).object=0)
    (hl : t.expLookupHandleTableEntry handle=some p) {toFirst : Bool}
    (hf : (!t.strictFIFO && t.locked (handle/4*4/4%4))=toFirst)
    (hlt : (if toFirst then t.firstFree else t.lastFree)<t.nextHandleNeedingPool) :
    t.expFreeHandleTableEntry handle p =
      some (({ t with
        handleCount := t.handleCount-1
        firstFree := if toFirst then handle/4*4 else t.firstFree
        lastFree := if toFirst then t.lastFree else handle/4*4 } : HandleTable).setEntry p
          ⟨0,if toFirst then t.firstFree else t.lastFree⟩) := by
  have hentry : ({ t with handleCount := t.handleCount-1 } : HandleTable).entry p =
    ⟨0,(t.entry p).nextFreeTableEntry⟩ := by
    rw [← ho]
    rfl
  unfold expFreeHandleTableEntry
  dsimp only
  rw [if_pos ⟨ho,hl⟩,hf,hentry]
  cases toFirst with
  | false => exact if_pos hlt
  | true => exact if_pos hlt

section
variable (hi : TableInv t low count F L live) {handle : Nat} (hp : (handle/4*4, e)∈live)
include hi hp

theorem TableInv.expFreeHandleTableEntry {e₀ : Entry} (he₀ : e₀.object=0) :
    ∃ t' F' L', (t.setEntry (entryPtr low (handle/4*4)) e₀).expFreeHandleTableEntry handle
        (entryPtr low (handle/4*4))=some t' ∧
      TableInv t' low count F' L' (live.filter (·.1≠handle/4*4)) := by
  have hv := hi.isHandle_live hp
  have hvnot : handle/4*4∉F++L := fun hm =>
    (nodup_append.mp hi.nodup).2.2 _ hm _ (mem_map_of_mem hp) rfl
  have hvF := fun hm => hvnot (mem_append_left L hm)
  have hvL := fun hm => hvnot (mem_append_right F hm)
  have hpos : handle/4*4≠0 := fun h0 => hv.2.2 (by simp [h0])
  have hlookup : (t.setEntry (entryPtr low (handle/4*4)) e₀).expLookupHandleTableEntry handle =
      some (entryPtr low (handle/4*4)) := by
    rw [(hi.paged.setEntry _ _).lookup_eq]
    exact if_pos hv.2.1
  have hobj : ((t.setEntry (entryPtr low (handle/4*4)) e₀).entry
      (entryPtr low (handle/4*4))).object=0 := by
    rw [t.entry_setEntry_self,he₀]
  -- writing the entry twice is writing it once
  have hwrite : ∀ (t₁ : HandleTable) (e₁ : Entry), t₁.mem=t.mem.setEntry
      (entryPtr low (handle/4*4)) e₀ →
      t₁.setEntry (entryPtr low (handle/4*4)) e₁ =
        ({ t₁ with mem := t.mem } : HandleTable).setEntry (entryPtr low (handle/4*4)) e₁ := by
    intro t₁ e₁ hmem
    have h2 := congrArg HandleTable.mem (t.setEntry_setEntry (entryPtr low (handle/4*4)) e₀ e₁)
    simp only [setEntry,hmem] at h2 ⊢
    rw [h2]
  cases hf : !t.strictFIFO && t.locked (handle/4*4/4%4) with
  | false =>
    have hlt := hi.head_lt (fun x hx => mem_append_right _ hx) hi.last
    refine ⟨_,F,handle/4*4::L,expFreeHandleTableEntry_eq hobj hlookup hf hlt,?_⟩
    rw [hwrite _ _ rfl]
    refine hi.release hp rfl rfl rfl hi.strict rfl perm_middle ?_ ?_
    · exact hi.chain_write rfl hv (fun x hx => mem_append_left _ hx) hvF hi.first
    · exact hi.chain_push rfl hv (fun x hx => mem_append_right _ hx) hvL hi.last hpos
  | true =>
    have hlt := hi.head_lt (fun x hx => mem_append_left _ hx) hi.first
    refine ⟨_,handle/4*4::F,L,expFreeHandleTableEntry_eq hobj hlookup hf hlt,?_⟩
    rw [hwrite _ _ rfl]
    refine hi.release hp rfl rfl rfl hi.strict rfl (List.Perm.refl _) ?_ ?_
    · exact hi.chain_push rfl hv (fun x hx => mem_append_left _ hx) hvF hi.first hpos
    · exact hi.chain_write rfl hv (fun x hx => mem_append_right _ hx) hvL hi.last

theorem TableInv.destroyLocked :
    ∃ t' F' L', (t.setEntry (entryPtr low (handle/4*4)) e).destroyLocked handle
        (entryPtr low (handle/4*4))=some t' ∧
      TableInv t' low count F' L' (live.filter (·.1≠handle/4*4)) := by
  have hvalid : e.object≠0 ∧ e.object &&& 1=0 := hi.valid _ hp
  unfold HandleTable.destroyLocked
  rw [t.entry_setEntry_self,if_pos hvalid,t.setEntry_setEntry]
  exact hi.expFreeHandleTableEntry hp rfl

end

theorem or_and_mask {w : Nat} (o k : BitVec w) : (o ||| k) &&& k=k := by
  ext i hi
  cases hk : k[i] with
  | false => simp [hk]
  | true => simp [hk]

theorem or_and_not_mask {w : Nat} {o k : BitVec w} (h : o &&& k=0#w) : (o ||| k) &&& ~~~k=o := by
  ext i hi
  have hb : (o[i] && k[i])=false := by
    rw [← BitVec.getElem_and,h,BitVec.getElem_zero]
  cases hk : k[i] with
  | false => simp [hk]
  | true =>
    rw [hk,Bool.and_true] at hb
    simp [hk,hb]

/-- The entry of a live handle is not locked, and locking it gives back what it was made
from. -/
theorem TableInv.lock (hi : TableInv t low count F L live) (hp : (v, e)∈live) :
    t.expLockHandleTableEntry (entryPtr low v)=some (t.setEntry (entryPtr low v) e, true) := by
  have he : t.entry (entryPtr low v)={ e with object := e.object ||| 1 } := hi.held _ hp
  have hvalid : e.Valid := hi.valid _ hp
  unfold expLockHandleTableEntry
  dsimp only
  rw [he,or_and_mask,if_pos (by decide),or_and_not_mask hvalid.2]

theorem TableInv.object_live (hi : TableInv t low count F L live) (hp : (v, e)∈live) :
    (t.entry (entryPtr low v)).object≠0 := by
  have he : t.entry (entryPtr low v)={ e with object := e.object ||| 1 } := hi.held _ hp
  rw [he]
  intro h0
  have h1 := or_and_mask e.object 1
  rw [show e.object ||| 1=0 from h0] at h1
  exact absurd h1 (by decide)

/-- The other entries have no object. -/
theorem TableInv.object_eq_zero (hi : TableInv t low count F L live) (h4 : v%4=0)
    (hlt : v<t.nextHandleNeedingPool) (hv : v∉live.map Prod.fst) :
    (t.entry (entryPtr low v)).object=0 := by
  by_cases h512 : v/4%512=0
  · have hnext := hi.paged.next
    have h0 : v%2048*2=0 := by omega
    have hres := hi.reserved (v/2048) (by omega)
    rw [entryPtr,h0]
    exact hres
  · obtain hm | hm := mem_append.mp ((hi.mem v).mpr ⟨h4,hlt,h512⟩)
    · exact hi.free v hm
    · exact absurd hm hv

theorem exists_live (hv : v∈live.map Prod.fst) : ∃ e, (v, e)∈live := by
  obtain ⟨⟨w,e⟩,hp,rfl⟩ := mem_map.mp hv
  exact ⟨e,hp⟩

theorem TableInv.exDestroyHandle (hi : TableInv t low count F L live) (handle : Nat) :
    ∃ t' r F' L', t.exDestroyHandle handle none=some (t', r) ∧
      TableInv t' low count F' L' (if r then live.filter (·.1≠handle/4*4) else live) ∧
      (r=true → handle/4*4∈live.map Prod.fst) := by
  unfold HandleTable.exDestroyHandle
  rw [hi.paged.lookup_eq]
  by_cases hlt : handle/4*4<t.nextHandleNeedingPool
  · rw [if_pos hlt]
    dsimp only
    by_cases hv : handle/4*4∈live.map Prod.fst
    · obtain ⟨e,hp⟩ := exists_live hv
      by_cases hmark : (t.entry (entryPtr low (handle/4*4))).nextFreeTableEntry=reservedMark
      · -- an access mask that looks like the mark of a first entry
        rw [if_pos (.inr hmark)]
        exact ⟨t,false,F,L,rfl,hi,by simp⟩
      · have hcond : ¬((t.entry (entryPtr low (handle/4*4))).object=0 ∨
            (t.entry (entryPtr low (handle/4*4))).nextFreeTableEntry=reservedMark) :=
          fun hc => hc.elim (hi.object_live hp) hmark
        obtain ⟨t',F',L',hrun,hi'⟩ := hi.destroyLocked hp
        rw [if_neg hcond,hi.lock hp]
        refine ⟨t',true,F',L',?_,hi',fun _ => hv⟩
        simp [hrun]
    · rw [if_pos (.inl (hi.object_eq_zero (by omega) hlt hv))]
      exact ⟨t,false,F,L,rfl,hi,by simp⟩
  · rw [if_neg hlt]
    exact ⟨t,false,F,L,rfl,hi,by simp⟩

theorem TableInv.exMapHandleToPointer (hi : TableInv t low count F L live) (handle : Nat) :
    (∃ e, (handle/4*4, e)∈live ∧ t.exMapHandleToPointer handle =
      some (t.setEntry (entryPtr low (handle/4*4)) e, some (entryPtr low (handle/4*4)))) ∨
    handle/4*4∉live.map Prod.fst ∧ t.exMapHandleToPointer handle=some (t, none) := by
  unfold HandleTable.exMapHandleToPointer
  rw [hi.paged.lookup_eq]
  by_cases hv : handle/4*4∈live.map Prod.fst
  · obtain ⟨e,hp⟩ := exists_live hv
    obtain ⟨-,hlt,h512⟩ := hi.isHandle_live hp
    refine .inl ⟨e,hp,?_⟩
    rw [if_neg (by omega),if_pos hlt]
    simp [hi.lock hp]
  · refine .inr ⟨hv,?_⟩
    by_cases h512 : handle/4%512=0
    · rw [if_pos h512]
    · rw [if_neg h512]
      by_cases hlt : handle/4*4<t.nextHandleNeedingPool
      · have h0 := hi.object_eq_zero (by omega) hlt hv
        rw [if_pos hlt]
        simp [expLockHandleTableEntry,h0]
      · rw [if_neg hlt]

theorem HandleTable.setEntry_self (t : HandleTable) (p : EntryPtr) :
    t.setEntry p (t.entry p)=t := by
  have hentries : (t.mem.setEntry p (t.entry p)).entries=t.mem.entries := by
    funext b o
    by_cases hbo : b=p.table ∧ o=p.offset
    · rw [Memory.entries_setEntry,if_pos hbo,hbo.1,hbo.2]
      rfl
    · rw [Memory.entries_setEntry,if_neg hbo]
  simp only [setEntry,Memory.setEntry] at hentries ⊢
  rw [hentries]

/-- A growth of a table without free handles on `FirstFree`. -/
theorem slow_eq {l : Nat} (hf : t.firstFree=0)
    (hrun : t.addLowLevelTable true=some (t₁, l)) (hl : l≠0) (ha : Added t t₁ l) :
    t.expAllocateHandleTableEntrySlow true =
      some ({ t₁ with
        nextHandleNeedingPool := t.nextHandleNeedingPool+2048
        firstFree := t.nextHandleNeedingPool+4 }, true) := by
  have hf₁ : t₁.firstFree=0 := by rw [ha.fields]; exact hf
  have hn₁ : t₁.nextHandleNeedingPool=t.nextHandleNeedingPool := by rw [ha.fields]
  let t₂ : HandleTable :=
    { t₁ with nextHandleNeedingPool := t.nextHandleNeedingPool+2048 }
  have hlast : t₂.entry ⟨l,8*511⟩=⟨0,0⟩ := ha.new.last
  have hself : t₂.setEntry ⟨l,8*511⟩ ⟨0,0⟩=t₂ := by
    rw [← hlast]
    exact t₂.setEntry_self _
  unfold expAllocateHandleTableEntrySlow
  rw [hrun]
  simp only [Option.bind_eq_bind,Option.bind_some,if_neg hl,if_true,hn₁,hf₁]
  show some (({ t₂.setEntry ⟨l,8*511⟩ ⟨(t₂.entry ⟨l,8*511⟩).object,0⟩ with
    firstFree := t.nextHandleNeedingPool+4 }), true)=_
  rw [hlast,hself]

theorem NewTable.entries {l base i : Nat} (hn : NewTable m l base) (h1 : 1 ≤ i) (hi : i<512) :
    m.entries l (8*i)=⟨0,if i<511 then base+4*(i+1) else 0⟩ := by
  by_cases hlt : i<511
  · rw [if_pos hlt]
    exact hn.link i h1 hlt
  · obtain rfl : i=511 := by omega
    exact hn.last

/-- The handles of a new low level table are linked in order. -/
theorem chain_newHandles {base : Nat}
    (hl : ∀ i, 1 ≤ i → i<512 → link (base+4*i)=if i<511 then base+4*(i+1) else 0) :
    Chain 0 id link (base+4) (List.range' (base+4) 511 4) := by
  refine chain_range' (Nat.succ_pos _) (fun i hi => ?_) ?_
  · rw [show base+4+4*i=base+4*(i+1) by ring,hl (i+1) (by omega) (by omega),if_pos (by omega)]
    ring
  · rw [hl 511 (by omega) (by omega),if_neg (by omega)]

/-- A growth keeps the entries of the handles that exist. -/
theorem Added.entryOf_old {l : Nat} (ha : Added t t₁ l)
    (hp : Paged t low count) (hh : h<t.nextHandleNeedingPool) :
    t₁.entryOf (update low count l) h=t.entryOf low h := by
  have hnext := hp.next
  have hne : h/2048≠count := by omega
  have hlow : low (h/2048)≠l := fun he => ha.fresh (he ▸ hp.used _ (by omega))
  rw [entryOf,entryPtr,update_of_ne hne]
  exact ha.old _ _ hlow

theorem Added.entryOf_new {l i : Nat} (ha : Added t t₁ l)
    (hp : Paged t low count) (h1 : 1 ≤ i) (hi : i<512) :
    t₁.entryOf (update low count l) (t.nextHandleNeedingPool+4*i) =
      ⟨0,if i<511 then t.nextHandleNeedingPool+4*(i+1) else 0⟩ := by
  have hnext := hp.next
  have hq : (t.nextHandleNeedingPool+4*i)/2048=count := by omega
  have ho : (t.nextHandleNeedingPool+4*i)%2048*2=8*i := by omega
  rw [entryOf,entryPtr,hq,ho,update_self]
  exact ha.new.entries h1 hi

theorem mem_newHandles (h base : Nat) (h4 : base%4=0) :
    h∈List.range' (base+4) 511 4 ↔ h%4=0 ∧ base<h ∧ h<base+2048 := by
  rw [mem_range']
  constructor
  · rintro ⟨i,hi,rfl⟩
    omega
  · intro hh
    exact ⟨(h-base-4)/4,by omega,by omega⟩

/-- The handles of the new low level table are free, and in order. -/
theorem TableInv.grow (hi : TableInv t low count [] L live) (hlt : count<32768) :
    ∃ t' low', t.expAllocateHandleTableEntrySlow true=some (t', true) ∧
      TableInv t' low' (count+1) (List.range' (t.nextHandleNeedingPool+4) 511 4) L live := by
  obtain ⟨t₁,l,hrun,hl,ha,hlev⟩ := hi.paged.grows hlt
  have hf : t.firstFree=0 := hi.first
  have hnext := hi.paged.next
  have hpaged := ha.paged hi.paged hlt hlev
  have hrange : ∀ h, h∈List.range' (t.nextHandleNeedingPool+4) 511 4 ↔ h%4=0 ∧
      t.nextHandleNeedingPool<h ∧ h<t.nextHandleNeedingPool+2048 := fun h =>
    mem_newHandles h _ (by omega)
  have hlow : ∀ h∈L++live.map Prod.fst, h<t.nextHandleNeedingPool := fun h hh =>
    ((hi.mem h).mp hh).2.1
  have hfields : t₁={ t with tableCode := t₁.tableCode, mem := t₁.mem } := ha.fields
  refine ⟨_,update low count l,slow_eq hf hrun hl ha,?_⟩
  refine ⟨⟨hpaged.pool,hpaged.next,hpaged.pos,hpaged.le,hpaged.used,hpaged.injective,
    hpaged.levels⟩,?_,?_,?_,?_,?_,?_,?_,?_,hi.valid,?_⟩
  · show t₁.strictFIFO=false
    rw [hfields]
    exact hi.strict
  · refine chain_newHandles fun i h1 h512 => ?_
    exact congrArg Entry.nextFreeTableEntry (ha.entryOf_new hi.paged h1 h512)
  · have hlast : t₁.lastFree=t.lastFree := by rw [hfields]
    show t₁.FreeChain _ t₁.lastFree L
    rw [hlast]
    refine hi.last.congr fun h hh => ?_
    rw [ha.entryOf_old hi.paged (hlow h (mem_append_left _ hh))]
  · rw [append_assoc]
    refine nodup_append.mpr ⟨nodup_range' 4 (by decide),hi.nodup,?_⟩
    intro a hm b hb hab
    have h1 := (hrange a).mp hm
    have h2 := hlow b hb
    omega
  · intro h
    rw [append_assoc,mem_append,hrange]
    have hmem := hi.mem h
    rw [nil_append] at hmem
    rw [hmem]
    simp only [HandleTable.IsHandle]
    omega
  · intro h hh
    show (t₁.entryOf _ h).object=0
    obtain hh | hh := mem_append.mp hh
    · obtain ⟨h4,h1,h2⟩ := (hrange h).mp hh
      obtain ⟨i,hi1,rfl⟩ : ∃ i, 1 ≤ i ∧ h=t.nextHandleNeedingPool+4*i :=
        ⟨(h-t.nextHandleNeedingPool)/4,by omega,by omega⟩
      rw [ha.entryOf_new hi.paged hi1 (by omega)]
    · rw [ha.entryOf_old hi.paged (hlow h (mem_append_left _ hh))]
      exact hi.free h hh
  · intro i hic
    by_cases hi' : i=count
    · rw [hi',update_self]
      rw [ha.new.zero]
    · rw [update_of_ne hi']
      have hne : low i≠l := fun he => ha.fresh (he ▸ hi.paged.used i (by omega))
      rw [ha.old _ _ hne]
      exact hi.reserved i (by omega)
  · intro p hp
    show t₁.entryOf _ p.1=_
    rw [ha.entryOf_old hi.paged (hi.isHandle_live hp).2.1]
    exact hi.held p hp
  · show t₁.handleCount=_
    rw [hfields]
    exact hi.handleCount

/-- `ExpMoveFreeHandles` makes the second chain the first. -/
theorem TableInv.move (hi : TableInv t low count [] L live) :
    TableInv { t with lastFree := 0, firstFree := t.lastFree } low count L [] live where
  paged := ⟨hi.paged.pool,hi.paged.next,hi.paged.pos,hi.paged.le,hi.paged.used,
    hi.paged.injective,hi.paged.levels⟩
  strict := hi.strict
  first := hi.last
  last := rfl
  nodup := by simpa using hi.nodup
  mem := by
    intro h
    rw [append_nil]
    exact hi.mem h
  free := by
    intro h hh
    rw [append_nil] at hh
    exact hi.free h hh
  reserved := hi.reserved
  held := hi.held
  valid := hi.valid
  handleCount := hi.handleCount

/-- The inner loop ends with a free handle, unless all handles are live. -/
theorem TableInv.freeHandle (hi : TableInv t low count F L live) :
    (∃ t' v low' count' F' L', freeHandleLoop 2 t=some (t', v) ∧
      TableInv t' low' count' (v::F') L' live) ∨
    freeHandleLoop 2 t=some (t, 0) ∧ count=32768 ∧ F=[] ∧ L=[] := by
  cases F with
  | cons v F =>
    obtain ⟨hv,hne,-⟩ := hi.first
    refine .inl ⟨t,v,low,count,F,L,?_,hi⟩
    have hf : t.firstFree≠0 := by rwa [hv]
    rw [freeHandleLoop,if_pos hf,hv]
    rfl
  | nil =>
    have hf : t.firstFree=0 := hi.first
    cases L with
    | cons v L =>
      obtain ⟨hv,hne,-⟩ := hi.last
      have hv' : t.lastFree=v := hv
      have hne' : v≠0 := hne
      refine .inl ⟨_,v,low,count,L,[],?_,hi.move⟩
      simp [freeHandleLoop,expMoveFreeHandles,hf,hi.strict,hv',hne']
    | nil =>
      have hl : t.lastFree=0 := hi.last
      have hmove : t.expMoveFreeHandles=some (t, 0) := by
        have ht : { t with lastFree := 0 }=t := by rw [← hl]
        simp [expMoveFreeHandles,hl,ht]
      obtain hlt | rfl := Nat.lt_or_eq_of_le hi.paged.le
      · obtain ⟨t',low',hslow,hi'⟩ := hi.grow hlt
        obtain ⟨hv,hne,-⟩ := hi'.first
        have hv' : t'.firstFree=t.nextHandleNeedingPool+4 := hv
        refine .inl ⟨t',_,low',count+1,_,[],?_,hi'⟩
        simp [freeHandleLoop,hf,hmove,hslow,hv']
      · have hslow : t.expAllocateHandleTableEntrySlow true=some (t, false) := by
          simp [expAllocateHandleTableEntrySlow,hi.paged.addLowLevelTable_full]
        refine .inr ⟨?_,rfl,rfl,rfl⟩
        simp [freeHandleLoop,hf,hmove,hslow]

/-- A new handle is a free one; there is none only if all handles of the largest table are
live. -/
theorem TableInv.exCreateHandle (hi : TableInv t low count F L live) (he : e.Valid) :
    (∃ t' v low' count' F' L', t.exCreateHandle e=some (t', v) ∧ v≠0 ∧
      v∉live.map Prod.fst ∧ TableInv t' low' count' F' L' ((v, e)::live)) ∨
    t.exCreateHandle e=some (t, 0) ∧ t.nextHandleNeedingPool=32768*2048 ∧
      ∀ h, t.IsHandle h → h∈live.map Prod.fst := by
  obtain ⟨t',v,low',count',F',L',hfree,hi'⟩ | ⟨hfull,rfl,rfl,rfl⟩ := hi.freeHandle
  · have hv : t'.IsHandle v := hi'.isHandle (l := [v]) (by simp) (by simp)
    have hpos : v≠0 := hi'.first.2.1
    have hf : t'.firstFree=v := hi'.first.1
    have hnext := hi'.head_lt (fun x hx => by simp [hx]) hi'.first.2.2
    have htake := hi'.take he
    refine .inl ⟨_,v,low',count',F',L',?_,hpos,?_,htake⟩
    · have hnew : t.expAllocateHandleTableEntry=some ({ t' with
          firstFree := (t'.entryOf low' v).nextFreeTableEntry
          handleCount := t'.handleCount+1 }, v, some (entryPtr low' v)) := by
        simp only [expAllocateHandleTableEntry,allocateLoop,hfree,
          Option.bind_eq_bind,Option.bind_some,if_neg hpos,hf,ne_eq,not_true_eq_false,if_false,
          hi'.paged.lookup_handle hv]
        exact if_pos hnext
      simp only [HandleTable.exCreateHandle,hnew,Option.bind_eq_bind,Option.bind_some,
        HandleTable.exUnlockHandleTableEntry,HandleTable.entry_setEntry_self,he.2,if_true,
        HandleTable.setEntry_setEntry]
    · have hnodup := hi'.nodup
      exact fun hm => (nodup_cons.mp hnodup).1 (mem_append_right _ hm)
  · refine .inr ⟨?_,hi.paged.next,fun h hh => (hi.mem h).mpr hh⟩
    simp [exCreateHandle,expAllocateHandleTableEntry,allocateLoop,hfull]

/-- A new table has 511 free handles. -/
theorem exCreateHandleTable_spec (hp : PoolSound m.supply) :
    ∃ t low, exCreateHandleTable m=some t ∧
      TableInv t low 1 (List.range' 4 511 4) [] [] := by
  have hrun : exCreateHandleTable m=some
      { tableCode := m.supply (m.taken+1), firstFree := 4, lastFree := 0
        nextHandleNeedingPool := 2048, handleCount := 0, strictFIFO := false
        locked := fun _ => false
        mem := ({ m with taken := m.taken+2 } : Memory).initTable (m.supply (m.taken+1)) 8
          true } := by
    simp [exCreateHandleTable,expAllocateHandleTable,
      Memory.expAllocateTablePagedPoolNoZero,hp.ne_zero]
  have hnew : NewTable (({ m with taken := m.taken+2 } : Memory).initTable
      (m.supply (m.taken+1)) 8 true) (m.supply (m.taken+1)) 0 := newTable_initTable
  generalize hm : ({ m with taken := m.taken+2 } : Memory).initTable (m.supply (m.taken+1)) 8
    true=m' at hrun hnew
  have hsupply : m'.supply=m.supply := by rw [← hm,Memory.supply_initTable]
  have htaken : m'.taken=m.taken+2 := by rw [← hm,Memory.taken_initTable]
  refine ⟨_,fun _ => m.supply (m.taken+1),hrun,?_⟩
  have hentry : ∀ i, 1 ≤ i → i<512 → m'.entries (m.supply (m.taken+1)) (4*i%2048*2) =
      ⟨0,if i<511 then 0+4*(i+1) else 0⟩ := by
    intro i h1 hi
    rw [show 4*i%2048*2=8*i by omega]
    exact hnew.entries h1 hi
  refine ⟨⟨by rw [hsupply]; exact hp,rfl,by decide,by decide,?_,?_,Levels.one rfl⟩,rfl,?_,rfl,
    ?_,?_,?_,?_,by simp,by simp,rfl⟩
  · intro i hi
    exact ⟨m.taken+1,by show _< m'.taken; omega,by rw [hsupply]⟩
  · intro i j hi hj _
    omega
  · refine chain_newHandles fun i h1 hi => ?_
    rw [Nat.zero_add]
    exact congrArg Entry.nextFreeTableEntry (hentry i h1 hi)
  · simpa using nodup_range' 4 (by decide)
  · intro h
    have := mem_newHandles h 0 rfl
    rw [append_nil,map_nil,append_nil]
    rw [this]
    simp only [HandleTable.IsHandle]
    omega
  · intro h hh
    rw [append_nil] at hh
    have := (mem_newHandles h 0 rfl).mp hh
    obtain ⟨i,rfl⟩ : ∃ i, h=4*i := ⟨h/4,by omega⟩
    exact congrArg Entry.object (hentry i (by omega) (by omega))
  · intro i hi
    exact congrArg Entry.object hnew.zero

end Lists

/-- A handle table with the handles that have been created and not destroyed. -/
structure Handles where
  table : HandleTable
  live : List (Nat × Entry)

/-- What the callers do. A handle is destroyed by number, or through its entry, which
`ExMapHandleToPointer` has locked. -/
inductive Call where
  | create (e : Entry)
  | destroy (handle : Nat)
  | close (handle : Nat)

namespace Handles

def remove (s : Handles) (t : HandleTable) (handle : Nat) (done : Bool) : Handles :=
  ⟨t,if done then s.live.filter (·.1≠handle/4*4) else s.live⟩

def step (s : Handles) : Call → Option Handles
  | .create e => do
    let (t, handle) ← s.table.exCreateHandle e
    some ⟨t,if handle=0 then s.live else (handle, e)::s.live⟩
  | .destroy handle => do
    let (t, done) ← s.table.exDestroyHandle handle none
    some (s.remove t handle done)
  | .close handle => do
    let (t, p) ← s.table.exMapHandleToPointer handle
    match p with
    | none => some ⟨t,s.live⟩
    | some p =>
      let (t, done) ← t.exDestroyHandle handle (some p)
      some (s.remove t handle done)

def run (s : Handles) : List Call → Option Handles
  | [] => some s
  | c::calls => (s.step c).bind fun s' => s'.run calls

def link (s : Handles) (h : Nat) : Nat :=
  match s.table.expLookupHandleTableEntry h with
  | some p => (s.table.entry p).nextFreeTableEntry
  | none => 0

/-- The invariant of a table: the handles are live or on exactly one of the two chains, the
live ones are counted and mapped to their objects, and new handles are free ones. -/
structure Exact (s : Handles) : Prop where
  chains : ∃ F L, Chain 0 id s.link s.table.firstFree F ∧ Chain 0 id s.link s.table.lastFree L ∧
    (F++L).Nodup ∧ ∀ h, h∈F++L ↔ s.table.IsHandle h ∧ h∉s.live.map Prod.fst
  live : ∀ p∈s.live, s.table.IsHandle p.1
  nodup : (s.live.map Prod.fst).Nodup
  handleCount : s.table.handleCount=s.live.length
  map : ∀ p∈s.live, ∃ t' q, s.table.exMapHandleToPointer p.1=some (t', some q) ∧
    t'.entry q=p.2
  create : ∀ e : Entry, e.Valid → ∃ t' h, s.table.exCreateHandle e=some (t', h) ∧
    (h≠0 → h∉s.live.map Prod.fst ∧ h%4=0 ∧ h/4%512≠0) ∧
    (h=0 → s.table.nextHandleNeedingPool=32768*2048 ∧
      ∀ h, s.table.IsHandle h → h∈s.live.map Prod.fst)

def Inv (s : Handles) : Prop := ∃ low count F L, TableInv s.table low count F L s.live

end Handles

section Runs
variable {s : Handles}

theorem Handles.Inv.step (hi : s.Inv) {c : Call} (hc : ∀ e, c = .create e → e.Valid) :
    ∃ s', s.step c=some s' ∧ s'.Inv := by
  obtain ⟨low,count,F,L,hi⟩ := hi
  cases c with
  | create e =>
    obtain ⟨t',v,low',count',F',L',hrun,hpos,-,hi'⟩ | ⟨hrun,-⟩ :=
      hi.exCreateHandle (hc e rfl)
    · refine ⟨⟨t',(v, e)::s.live⟩,?_,low',count',F',L',hi'⟩
      simp [Handles.step,hrun,hpos]
    · refine ⟨s,?_,low,count,F,L,hi⟩
      simp [Handles.step,hrun]
  | destroy handle =>
    obtain ⟨t',r,F',L',hrun,hi',-⟩ := hi.exDestroyHandle handle
    refine ⟨s.remove t' handle r,?_,low,count,F',L',hi'⟩
    simp [Handles.step,hrun]
  | close handle =>
    obtain ⟨e,hp,hmap⟩ | ⟨-,hmap⟩ := hi.exMapHandleToPointer handle
    · obtain ⟨t',F',L',hrun,hi'⟩ := hi.destroyLocked hp
      refine ⟨s.remove t' handle true,?_,low,count,F',L',hi'⟩
      simp [Handles.step,hmap,exDestroyHandle,hrun]
    · refine ⟨s,?_,low,count,F,L,hi⟩
      simp [Handles.step,hmap]

theorem Handles.Inv.run (hi : s.Inv) {calls : List Call} (hc : ∀ e, .create e∈calls → e.Valid) :
    ∃ s', s.run calls=some s' ∧ s'.Inv := by
  induction calls generalizing s with
  | nil => exact ⟨s,rfl,hi⟩
  | cons c calls ih =>
    have hfirst : ∀ e, c = .create e → e.Valid := fun e he => hc e (by simp [he])
    obtain ⟨s₁,hstep,hi₁⟩ := hi.step hfirst
    obtain ⟨s',hrun,hi'⟩ := ih hi₁ fun e he => hc e (by simp [he])
    exact ⟨s',by rw [Handles.run,hstep]; exact hrun,hi'⟩

theorem Handles.Inv.exact (hi : s.Inv) : s.Exact := by
  obtain ⟨low,count,F,L,hi⟩ := hi
  have hnodup := nodup_append.mp hi.nodup
  have hlink : ∀ h∈F++L, s.link h=(s.table.entryOf low h).nextFreeTableEntry := by
    intro h hh
    have hlookup := hi.paged.lookup_handle ((hi.mem h).mp (mem_append_left _ hh))
    rw [Handles.link,hlookup]
    rfl
  refine ⟨⟨F,L,?_,?_,hnodup.1,?_⟩,fun p hp => hi.isHandle_live hp,hnodup.2.1,hi.handleCount,?_,?_⟩
  · exact hi.first.congr fun h hh => hlink h (mem_append_left _ hh)
  · exact hi.last.congr fun h hh => hlink h (mem_append_right _ hh)
  · intro h
    rw [← hi.mem,mem_append (s := F++L)]
    constructor
    · intro hh
      exact ⟨.inl hh,fun hm => hnodup.2.2 h hh h hm rfl⟩
    · rintro ⟨hh | hh,hn⟩
      · exact hh
      · exact absurd hh hn
  · intro p hp
    have h4 : p.1/4*4=p.1 := by
      have := (hi.isHandle_live hp).1
      omega
    obtain ⟨e,hpe,hmap⟩ | ⟨hn,-⟩ := hi.exMapHandleToPointer p.1
    · rw [h4] at hpe hmap
      refine ⟨_,_,hmap,?_⟩
      rw [entry_setEntry_self]
      have he : (p.1, e)=p := inj_on_of_nodup_map hnodup.2.1 hpe hp rfl
      rw [← he]
    · rw [h4] at hn
      exact absurd (mem_map_of_mem hp) hn
  · intro e he
    obtain ⟨t',v,low',count',F',L',hrun,hpos,hn,hi'⟩ | ⟨hrun,hnext,hall⟩ :=
      hi.exCreateHandle he
    · have hv := hi'.isHandle_live mem_cons_self
      exact ⟨t',v,hrun,fun _ => ⟨hn,hv.1,hv.2.2⟩,fun h0 => absurd h0 hpos⟩
    · exact ⟨s.table,0,hrun,absurd rfl,fun _ => ⟨hnext,hall⟩⟩

/-- In every sequential history of creating and destroying handles on a new table, the table
keeps its invariant: it is never left through an assertion or a wait. -/
theorem handle_table_history {m : Memory} (hp : PoolSound m.supply) {calls : List Call}
    (hc : ∀ e, .create e∈calls → e.Valid) :
    ∃ t s, exCreateHandleTable m=some t ∧ Handles.run ⟨t,[]⟩ calls=some s ∧
      s.Exact := by
  obtain ⟨t,low,ht,hi⟩ := exCreateHandleTable_spec hp
  have hinv : Handles.Inv ⟨t,[]⟩ := ⟨low,1,_,_,hi⟩
  obtain ⟨s,hrun,hi'⟩ := hinv.run hc
  exact ⟨t,s,ht,hrun,hi'.exact⟩

def somePool : Memory := ⟨fun _ _ => ⟨0,0⟩,fun _ _ => 0,fun n => 4096*(n+1),0⟩

theorem handle_table_history_calls :
    ∃ t s, exCreateHandleTable somePool=some t ∧
      Handles.run ⟨t,[]⟩ [.create ⟨8,1⟩,.create ⟨16,2⟩,.destroy 4,.create ⟨24,3⟩,.close 8] =
        some s ∧ s.Exact := by
  refine handle_table_history ⟨fun n => ?_,fun n => ?_,fun n k hnk => ?_⟩ fun e he => ?_
  · exact Nat.mul_ne_zero (by decide) (Nat.succ_ne_zero n)
  · show 4096*(n+1)%4=0
    omega
  · have : 4096*(n+1)=4096*(k+1) := hnk
    omega
  · simp only [mem_cons,Call.create.injEq,reduceCtorEq,not_mem_nil,false_or,or_false]
      at he
    obtain rfl | rfl | rfl := he
    · exact ⟨by decide,by decide⟩
    · exact ⟨by decide,by decide⟩
    · exact ⟨by decide,by decide⟩

end Runs

end Odyssey.Ex
