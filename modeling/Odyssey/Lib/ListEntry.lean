import Mathlib.Tactic

/-! Circular doubly linked lists with a list head (`LIST_ENTRY`). -/
namespace ListEntry
open Function List
variable {α : Type*}

structure Links (α : Type*) where
  flink : α → α
  blink : α → α

namespace Links
variable [DecidableEq α]

def setFlink (m : Links α) (x y : α) : Links α := { m with flink := update m.flink x y }

def setBlink (m : Links α) (x y : α) : Links α := { m with blink := update m.blink x y }

def initializeListHead (m : Links α) (head : α) : Links α :=
  (m.setFlink head head).setBlink head head

def insertHeadList (m : Links α) (head entry : α) : Links α :=
  let next := m.flink head
  (((m.setFlink entry next).setBlink entry head).setBlink next entry).setFlink head entry

def insertTailList (m : Links α) (head entry : α) : Links α :=
  let last := m.blink head
  (((m.setFlink entry head).setBlink entry last).setFlink last entry).setBlink head entry

def removeEntryList (m : Links α) (entry : α) : Links α :=
  let next := m.flink entry
  let last := m.blink entry
  (m.setFlink last next).setBlink next last

def isOnlyEntry (m : Links α) (entry : α) : Bool := m.flink entry=m.blink entry

end Links

def Linked (m : Links α) (x y : α) : Prop := m.flink x=y ∧ m.blink y=x

/-- Following the links from the head meets the entries of a list and then the head again, in
both directions. -/
structure IsList (m : Links α) (head : α) (l : List α) : Prop where
  nodup : (head::l).Nodup
  chain : List.IsChain (Linked m) (head::l++[head])

/-- The entry before a point of the list and the entry behind it. -/
theorem exists_neighbours (head : α) (A B : List α) :
    ∃ P p q Q, head::A=P++[p] ∧ B++[head]=q::Q := by
  obtain ⟨P,p,hp⟩ := eq_nil_or_concat (head::A) |>.resolve_left (cons_ne_nil _ _)
  cases B with
  | nil => exact ⟨P,p,head,[],by simpa using hp,rfl⟩
  | cons q B => exact ⟨P,p,q,B++[head],by simpa using hp,rfl⟩

section Lists
variable {m m' : Links α} {head head' e p q : α} {A B P Q l l' : List α}

theorem linked_congr (h : List.IsChain (Linked m) l)
    (hf : ∀ x∈l.dropLast, m'.flink x=m.flink x) (hb : ∀ y∈l.tail, m'.blink y=m.blink y) :
    List.IsChain (Linked m') l := by
  induction l with
  | nil => exact .nil
  | cons a l ih =>
    cases l with
    | nil => exact .singleton a
    | cons b l =>
      obtain ⟨hab,ht⟩ := isChain_cons_cons.mp h
      have hab' : Linked m' a b := ⟨(hf a (by simp)).trans hab.1,(hb b (by simp)).trans hab.2⟩
      refine isChain_cons_cons.mpr ⟨hab',ih ht (fun x hx => ?_) fun y hy => ?_⟩
      · exact hf x (by simp [hx])
      · exact hb y (mem_cons_of_mem _ hy)

theorem IsList.congr (h : IsList m head l) (hf : ∀ x∈head::l, m'.flink x=m.flink x)
    (hb : ∀ x∈head::l, m'.blink x=m.blink x) : IsList m' head l := by
  refine ⟨h.nodup,linked_congr h.chain (fun x hx => ?_) fun y hy => ?_⟩
  · rw [dropLast_concat] at hx
    exact hf x hx
  · simp only [cons_append,tail_cons,mem_append,mem_singleton] at hy
    exact hb y (mem_cons.mpr hy.symm)

theorem cycle_eq (hp : head::A=P++[p]) (hq : B++[head]=q::Q) : head::(A++B)++[head]=P++p::q::Q := by
  calc head::(A++B)++[head]=(head::A)++(B++[head]) := by simp
    _=P++p::q::Q := by rw [hp,hq]; simp

theorem mem_before (hp : head::A=P++[p]) : p∈head::(A++B) := by
  have hmem : p∈head::A := by rw [hp]; simp
  exact mem_append_left B hmem

theorem mem_behind (hq : B++[head]=q::Q) : q∈head::(A++B) := by
  have hmem : q∈B++[head] := by rw [hq]; simp
  obtain hB | hh := mem_append.mp hmem
  · simp [hB]
  · simp [mem_singleton.mp hh]

/-- The part up to `p` and the part from `q` on are linked as before if only the links between `p`
and `q` are written. -/
theorem linked_parts (hnodup : (head::(A++B)).Nodup) (hp : head::A=P++[p])
    (hq : B++[head]=q::Q) (h1 : List.IsChain (Linked m) (P++[p]))
    (h2 : List.IsChain (Linked m) (q::Q))
    (hf : ∀ x∈head::(A++B), x≠p → m'.flink x=m.flink x)
    (hb : ∀ x∈head::(A++B), x≠q → m'.blink x=m.blink x) :
    List.IsChain (Linked m') (P++[p]) ∧ List.IsChain (Linked m') (q::Q) := by
  obtain ⟨hA,hB,hAB⟩ := nodup_append.mp (show (head::A++B).Nodup from hnodup)
  have hQ : (B++[head]).Nodup := by
    refine nodup_append.mpr ⟨hB,by simp,fun b hbB x hx hbx => ?_⟩
    obtain rfl := mem_singleton.mp hx
    exact hAB x (by simp) b hbB hbx.symm
  constructor
  · refine linked_congr h1 (fun x hx => ?_) fun y hy => ?_
    · rw [dropLast_concat] at hx
      have hmem : x∈head::A := by rw [hp]; simp [hx]
      have hne : x≠p := by
        rw [hp] at hA
        exact (nodup_append.mp hA).2.2 x hx p (by simp)
      exact hf x (mem_append_left B hmem) hne
    · rw [← hp,tail_cons] at hy
      have hne : y≠q := by
        rintro rfl
        have hmem : y∈B++[head] := by rw [hq]; simp
        obtain hyB | hyh := mem_append.mp hmem
        · exact hAB y (by simp [hy]) y hyB rfl
        · obtain rfl := mem_singleton.mp hyh
          exact (nodup_cons.mp hA).1 hy
      exact hb y (by simp [hy]) hne
  · refine linked_congr h2 (fun x hx => ?_) fun y hy => ?_
    · rw [← hq,dropLast_concat] at hx
      have hmem : p∈head::A := by rw [hp]; simp
      exact hf x (by simp [hx]) fun hxp => hAB p hmem x hx hxp.symm
    · have hmem : y∈B++[head] := by rw [hq]; exact mem_cons_of_mem _ hy
      have hmem' : y∈head::(A++B) := by
        obtain hyB | hyh := mem_append.mp hmem
        · simp [hyB]
        · simp [mem_singleton.mp hyh]
      rw [hq] at hQ
      exact hb y hmem' fun hyq => (nodup_cons.mp hQ).1 (hyq ▸ hy)

/-- The neighbours of an entry are its links. -/
theorem IsList.neighbours (h : IsList m head (A++e::B)) (hp : head::A=P++[p])
    (hq : B++[head]=q::Q) : m.blink e=p ∧ m.flink e=q ∧
      List.IsChain (Linked m) (P++[p]) ∧ List.IsChain (Linked m) (q::Q) := by
  have hchain := h.chain
  rw [cycle_eq hp (q := e) (by rw [cons_append,hq])] at hchain
  obtain ⟨h1,h2⟩ := isChain_split.mp hchain
  obtain ⟨hpe,h3⟩ := isChain_cons_cons.mp h2
  obtain ⟨heq,h4⟩ := isChain_cons_cons.mp h3
  exact ⟨hpe.2,heq.1,h1,h4⟩

theorem IsList.flink_head (h : IsList m head l) : ∃ Q, l++[head]=m.flink head::Q := by
  obtain ⟨P,p,q,Q,-,hq⟩ := exists_neighbours head [] l
  have hchain := h.chain
  rw [cons_append,hq] at hchain
  have hfl := (isChain_cons_cons.mp hchain).1.1
  exact ⟨Q,by rw [hfl,hq]⟩

theorem IsList.blink_head (h : IsList m head l) : ∃ P, head::l=P++[m.blink head] := by
  obtain ⟨P,p,q,Q,hp,hq⟩ := exists_neighbours head l []
  obtain ⟨rfl,rfl⟩ : head=q ∧ []=Q := by simpa using hq
  have hchain := h.chain
  rw [← append_nil l,cycle_eq hp hq] at hchain
  have hbl := (isChain_cons_cons.mp (isChain_split.mp hchain).2).1.2
  exact ⟨P,by rw [hbl,hp]⟩

variable [DecidableEq α]

theorem isList_initializeListHead (m : Links α) (head : α) :
    IsList (m.initializeListHead head) head [] := by
  refine ⟨by simp,isChain_cons_cons.mpr ⟨?_,.singleton head⟩⟩
  simp [Linked,Links.initializeListHead,Links.setFlink,Links.setBlink]

theorem IsList.isOnlyEntry_iff (h : IsList m head (A++e::B)) : m.isOnlyEntry e ↔ A++B=[] := by
  obtain ⟨P,p,q,Q,hp,hq⟩ := exists_neighbours head A B
  obtain ⟨hbe,hfe,-,-⟩ := h.neighbours hp hq
  have hsub : (head::A++B).Sublist (head::(A++e::B)) :=
    ((List.Sublist.refl A).append (sublist_cons_self e B)).cons_cons head
  obtain ⟨hA,-,hAB⟩ := nodup_append.mp (h.nodup.sublist hsub)
  rw [Links.isOnlyEntry,decide_eq_true_iff,hbe,hfe]
  constructor
  · rintro rfl
    have hmem : q∈head::A := by rw [hp]; simp
    cases B with
    | cons b B =>
      obtain ⟨rfl,-⟩ := List.cons.inj hq
      exact absurd rfl (hAB b hmem b (by simp))
    | nil =>
      obtain ⟨rfl,-⟩ := List.cons.inj hq
      cases A with
      | nil => rfl
      | cons a A =>
        -- the head would be the last entry behind itself
        have hlast : head=(a::A).getLast (by simp) := by
          have := congrArg List.getLast? hp
          simpa [getLast?_cons_cons,getLast?_eq_some_getLast] using this.symm
        exact absurd (hlast ▸ getLast_mem _) (nodup_cons.mp hA).1
  · intro hnil
    obtain ⟨rfl,rfl⟩ := append_eq_nil_iff.mp hnil
    obtain ⟨rfl,-⟩ : head=q ∧ []=Q := by simpa using hq
    cases P with
    | nil => simpa using hp
    | cons x P => simp at hp

/-- An entry is taken out of its list. -/
theorem IsList.remove (h : IsList m head (A++e::B)) : IsList (m.removeEntryList e) head (A++B) := by
  obtain ⟨P,p,q,Q,hp,hq⟩ := exists_neighbours head A B
  obtain ⟨hbe,hfe,h1,h2⟩ := h.neighbours hp hq
  have hsub : (head::(A++B)).Sublist (head::(A++e::B)) :=
    ((List.Sublist.refl A).append (sublist_cons_self e B)).cons_cons head
  have hnodup := h.nodup.sublist hsub
  have hf : (m.removeEntryList e).flink=update m.flink p q := by
    rw [← hbe,← hfe]; rfl
  have hb : (m.removeEntryList e).blink=update m.blink q p := by
    rw [← hbe,← hfe]; rfl
  obtain ⟨h3,h4⟩ := linked_parts hnodup hp hq h1 h2
    (fun x _ hx => by rw [hf,update_of_ne hx])
    fun x _ hx => by rw [hb,update_of_ne hx]
  refine ⟨hnodup,?_⟩
  rw [cycle_eq hp hq]
  refine isChain_split.mpr ⟨h3,isChain_cons_cons.mpr ⟨?_,h4⟩⟩
  simp [Linked,hf,hb]

/-- Taking an entry out of its list keeps the other lists. -/
theorem IsList.remove_other (h : IsList m head' l') (he : IsList m head (A++e::B))
    (hd : ∀ x∈head::(A++B), x∉head'::l') : IsList (m.removeEntryList e) head' l' := by
  obtain ⟨P,p,q,Q,hp,hq⟩ := exists_neighbours head A B
  obtain ⟨hbe,hfe,-,-⟩ := he.neighbours hp hq
  refine h.congr (fun x hx => ?_) fun x hx => ?_
  · exact update_of_ne (fun hxp => hd p (mem_before hp) (by rw [← hbe,← hxp]; exact hx))
      _ _
  · exact update_of_ne (fun hxq => hd q (mem_behind hq) (by rw [← hfe,← hxq]; exact hx))
      _ _

/-- An entry is linked between `p` and `q`. -/
theorem IsList.insert (h : IsList m head (A++B)) (he : e∉head::(A++B))
    (hp : head::A=P++[p]) (hq : B++[head]=q::Q)
    (hf : m'.flink=update (update m.flink e q) p e)
    (hb : m'.blink=update (update m.blink e p) q e) :
    IsList m' head (A++e::B) := by
  have hchain := h.chain
  rw [cycle_eq hp hq] at hchain
  obtain ⟨h1,h2⟩ := isChain_split.mp hchain
  have hne : ∀ x∈head::(A++B), x≠e := fun x hx hxe => he (hxe ▸ hx)
  obtain ⟨h3,h4⟩ := linked_parts h.nodup hp hq h1 (isChain_cons_cons.mp h2).2
    (fun x hx hxp => by rw [hf,update_of_ne hxp,update_of_ne (hne x hx)])
    fun x hx hxq => by rw [hb,update_of_ne hxq,update_of_ne (hne x hx)]
  have hep : e≠p := (hne p (mem_before hp)).symm
  have heq : e≠q := (hne q (mem_behind hq)).symm
  have hperm : (head::(A++e::B)).Perm (e::head::(A++B)) :=
    (perm_middle.cons head).trans (List.Perm.swap e head _)
  refine ⟨hperm.nodup_iff.mpr (nodup_cons.mpr ⟨he,h.nodup⟩),?_⟩
  rw [cycle_eq hp (q := e) (by rw [cons_append,hq])]
  refine isChain_split.mpr ⟨h3,isChain_cons_cons.mpr ⟨?_,isChain_cons_cons.mpr ⟨?_,h4⟩⟩⟩
  · simp [Linked,hf,hb,heq]
  · simp [Linked,hf,hb,hep]

theorem IsList.insertTail (h : IsList m head l) (he : e∉head::l) :
    IsList (m.insertTailList head e) head (l++[e]) := by
  obtain ⟨P,hp⟩ := h.blink_head
  rw [← append_nil l] at h he
  exact h.insert he hp (Q := []) rfl rfl rfl

theorem IsList.insertHead (h : IsList m head l) (he : e∉head::l) :
    IsList (m.insertHeadList head e) head (e::l) := by
  obtain ⟨Q,hq⟩ := h.flink_head
  exact h.insert he (P := []) rfl hq rfl rfl

section
variable (h : IsList m head' l') (hl : IsList m head l) (he : e∉head'::l')
  (hd : ∀ x∈head::l, x∉head'::l')
include h hl he hd

/-- Inserting an entry at the end of a list keeps the other lists. -/
theorem IsList.insertTail_other : IsList (m.insertTailList head e) head' l' := by
  obtain ⟨P,hp⟩ := hl.blink_head
  have hlast : m.blink head∈head::l := by rw [hp]; simp
  refine h.congr (fun x hx => ?_) fun x hx => ?_
  · have h1 : x≠m.blink head := fun hx' => hd _ hlast (hx' ▸ hx)
    have h2 : x≠e := fun hx' => he (hx' ▸ hx)
    simp [Links.insertTailList,Links.setFlink,Links.setBlink,h1,h2]
  · have h1 : x≠head := fun hx' => hd head (by simp) (hx' ▸ hx)
    have h2 : x≠e := fun hx' => he (hx' ▸ hx)
    simp [Links.insertTailList,Links.setFlink,Links.setBlink,h1,h2]

/-- Inserting an entry at the begin of a list keeps the other lists. -/
theorem IsList.insertHead_other : IsList (m.insertHeadList head e) head' l' := by
  obtain ⟨Q,hq⟩ := hl.flink_head
  have hfirst : m.flink head∈head::l := mem_behind (A := []) hq
  refine h.congr (fun x hx => ?_) fun x hx => ?_
  · have h1 : x≠head := fun hx' => hd head (by simp) (hx' ▸ hx)
    have h2 : x≠e := fun hx' => he (hx' ▸ hx)
    simp [Links.insertHeadList,Links.setFlink,Links.setBlink,h1,h2]
  · have h1 : x≠m.flink head := fun hx' => hd _ hfirst (hx' ▸ hx)
    have h2 : x≠e := fun hx' => he (hx' ▸ hx)
    simp [Links.insertHeadList,Links.setFlink,Links.setBlink,h1,h2]

end

/-- Every head of `heads` becomes the head of an empty list. -/
theorem isList_foldl_initializeListHead (heads : List α) (hmem : head∈heads ∨ IsList m head []) :
    IsList (heads.foldl (fun m h => m.initializeListHead h) m) head [] := by
  induction heads generalizing m with
  | nil => exact hmem.resolve_left (not_mem_nil)
  | cons h heads ih =>
    refine ih ?_
    by_cases hh : head=h
    · exact .inr (hh ▸ isList_initializeListHead m head)
    · obtain hmem | hempty := hmem
      · exact .inl ((mem_cons.mp hmem).resolve_left hh)
      · refine .inr (hempty.congr (fun x hx => ?_) fun x hx => ?_)
        · obtain rfl : x=head := by simpa using hx
          simp [Links.initializeListHead,Links.setFlink,Links.setBlink,hh]
        · obtain rfl : x=head := by simpa using hx
          simp [Links.initializeListHead,Links.setFlink,Links.setBlink,hh]

end Lists

section Family
variable {ι : Type*} {m : Links α} {head : ι → α} {lists : ι → List α} {i : ι} {e : α}

variable [DecidableEq α]

end Family

end ListEntry
