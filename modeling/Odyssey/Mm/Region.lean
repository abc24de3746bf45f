import Mathlib.Tactic

/-! Region lists of a memory area (`ntoskrnl/mm/region.c`): `MmAlterRegion` sets the type and the
protection of a range of addresses and tells the caller's function about the addresses that
change. -/
namespace Odyssey.Mm
open List Option

structure RegionAttributes where
  type : BitVec 32
  protect : BitVec 32
  deriving DecidableEq

structure MmRegion where
  attributes : RegionAttributes
  length : Nat
  deriving DecidableEq

structure AlterCall where
  address : Nat
  length : Nat
  old : RegionAttributes
  new : RegionAttributes
  deriving DecidableEq

/-- A region in its list, with the regions before it and behind it and the address where it
starts. -/
structure RegionPlace where
  before : List MmRegion
  region : MmRegion
  after : List MmRegion
  base : Nat

def mmFindRegion : Nat → List MmRegion → Nat → Option RegionPlace
  | _, [], _ => none
  | start, r::l, address =>
    if start≤address ∧ address<start+r.length then some ⟨[],r,l,start⟩
    else (mmFindRegion (start+r.length) l address).map fun p => { p with before := r::p.before }

section Alter
variable (new : RegionAttributes)

def mmSplitRegion (p : RegionPlace) (start length : Nat) : RegionPlace × AlterCall :=
  let internalLength := min (p.base+p.region.length-start) length
  let rest :=
    if start+length<p.base+p.region.length then
      [{ p.region with length := p.base+p.region.length-(start+length) }]
    else []
  let initial := if p.base=start then [] else [{ p.region with length := start-p.base }]
  (⟨p.before++initial,⟨new,internalLength⟩,rest++p.after,start⟩,
    ⟨start,internalLength,p.region.attributes,new⟩)

structure AlterState where
  newLength : Nat
  after : List MmRegion
  remaining : Nat
  currentBase : Nat
  calls : List AlterCall

def notify (r : MmRegion) (address length : Nat) : List AlterCall :=
  if r.attributes=new then [] else [⟨address,length,r.attributes,new⟩]

def freeRegions : List MmRegion → AlterState → AlterState
  | [], s => { s with after := [] }
  | r::l, s =>
    if 0<s.remaining ∧ r.length≤ s.remaining then
      freeRegions l { s with
        newLength := s.newLength+r.length
        remaining := s.remaining-r.length
        currentBase := s.currentBase+r.length
        calls := s.calls++notify new r s.currentBase r.length }
    else { s with after := r::l }

def splitFinal (s : AlterState) : AlterState :=
  match s.after with
  | [] => s
  | r::l =>
    if 0<s.remaining then
      { s with
        newLength := s.newLength+s.remaining
        after := { r with length := r.length-s.remaining }::l
        calls := s.calls++notify new r s.currentBase s.remaining }
    else s

def mergeNext (r : MmRegion) : List MmRegion → List MmRegion
  | [] => [r]
  | s::l =>
    if s.attributes=r.attributes then { r with length := r.length+s.length }::l else r::s::l

def mergePrevious (before : List MmRegion) : List MmRegion → List MmRegion
  | [] => before
  | r::l =>
    match before.getLast? with
    | none => r::l
    | some p =>
      if p.attributes=r.attributes then
        before.dropLast++{ r with length := r.length+p.length }::l
      else before++r::l

def alterFrom (p : RegionPlace) (start remaining : Nat) (calls : List AlterCall) :
    List MmRegion × List AlterCall :=
  let s := freeRegions new p.after
    ⟨p.region.length,[],remaining,start+p.region.length,calls⟩
  let s := splitFinal new s
  (mergePrevious p.before (mergeNext ⟨new,s.newLength⟩ s.after), s.calls)

inductive AlterStatus where
  | success
  | noMemory
  deriving DecidableEq

/-- `MmAlterRegion` gives its status, the list afterwards and the calls it made; `memory` says
whether the pool has memory for two regions. The result is `none` if no region contains
`StartAddress`. -/
def mmAlterRegion (base : Nat) (l : List MmRegion) (start length : Nat) (memory : Bool) :
    Option (AlterStatus × List MmRegion × List AlterCall) :=
  (mmFindRegion base l start).map fun p =>
    if p.region.attributes≠new then
      if memory then
        let q := mmSplitRegion new p start length
        (.success, alterFrom new q.1 start (length-q.1.region.length) [q.2])
      else (.noMemory, l, [])
    else
      (.success, alterFrom new p start (start+length-(p.base+p.region.length)) [])

end Alter

def attributesAt (base : Nat) (l : List MmRegion) (address : Nat) : Option RegionAttributes :=
  (mmFindRegion base l address).map fun p => p.region.attributes

def expand (l : List MmRegion) : List RegionAttributes :=
  l.flatMap fun r => List.replicate r.length r.attributes

def totalLength (l : List MmRegion) : Nat := (l.map MmRegion.length).sum

/-- No two neighbouring regions have equal attributes. -/
def Distinct (l : List MmRegion) : Prop :=
  l.IsChain fun r s => r.attributes≠s.attributes

theorem distinct_iff {l : List MmRegion} :
    Distinct l ↔ (l.map MmRegion.attributes).IsChain fun x y => x≠y :=
  (isChain_map MmRegion.attributes).symm

section Expand
variable {base start length address : Nat} {l l' : List MmRegion} {r : MmRegion}

@[simp] theorem expand_nil : expand []=[] := rfl

@[simp] theorem expand_cons (r : MmRegion) (l : List MmRegion) :
    expand (r::l)=List.replicate r.length r.attributes++expand l := flatMap_cons

@[simp] theorem expand_append (l l' : List MmRegion) : expand (l++l')=expand l++expand l' :=
  flatMap_append

theorem length_expand (l : List MmRegion) : (expand l).length=totalLength l := by
  induction l with
  | nil => rfl
  | cons r l ih => simp [totalLength,ih]

/-- What `MmFindRegion` finds. -/
theorem mmFindRegion_eq_some {p : RegionPlace} (h : mmFindRegion base l address=some p) :
    l=p.before++p.region::p.after ∧ p.base=base+totalLength p.before ∧
      p.base≤address ∧ address<p.base+p.region.length := by
  induction l generalizing base p with
  | nil => simp [mmFindRegion] at h
  | cons r l ih =>
    rw [mmFindRegion] at h
    split at h
    · rename_i hin
      obtain rfl := Option.some.inj h
      exact ⟨rfl,rfl,hin⟩
    · obtain ⟨q,hq,rfl⟩ := map_eq_some_iff.mp h
      obtain ⟨hl,hbase,hin⟩ := ih hq
      refine ⟨by rw [hl]; rfl,?_,hin⟩
      rw [hbase,totalLength,totalLength,map_cons,sum_cons,Nat.add_assoc]

theorem attributesAt_eq (base : Nat) (l : List MmRegion) (address : Nat) :
    attributesAt base l address=if base≤address then (expand l)[address-base]? else none := by
  induction l generalizing base with
  | nil => simp [attributesAt,mmFindRegion]
  | cons r l ih =>
    rw [attributesAt,mmFindRegion]
    split
    · rename_i hin
      have hlt : address-base<r.length := by omega
      rw [if_pos hin.1,expand_cons,getElem?_append_left (by simpa using hlt)]
      simp [hlt]
    · rename_i hin
      have hrest := ih (base+r.length)
      rw [Option.map_map]
      refine hrest.trans ?_
      by_cases hle : base≤address
      · have hge : base+r.length≤address := by omega
        rw [if_pos hle,if_pos hge,expand_cons,
          getElem?_append_right (by simp; omega),length_replicate]
        congr 1
        omega
      · rw [if_neg hle,if_neg (by omega)]

/-- There is a region for each address of the memory. -/
theorem exists_mmFindRegion (h1 : base≤address) (h2 : address<base+totalLength l) :
    ∃ p, mmFindRegion base l address=some p := by
  have hsome : (attributesAt base l address).isSome := by
    rw [attributesAt_eq,if_pos h1,getElem?_eq_getElem (by rw [length_expand]; omega)]
    rfl
  rw [attributesAt,isSome_map] at hsome
  exact isSome_iff_exists.mp hsome

end Expand

def notifyAll (new : RegionAttributes) : Nat → List MmRegion → List AlterCall
  | _, [] => []
  | address, r::l => notify new r address r.length++notifyAll new (address+r.length) l

section Pass
variable {new : RegionAttributes} {l : List MmRegion} {s : AlterState}

theorem notifyAll_append (address : Nat) (l l' : List MmRegion) :
    notifyAll new address (l++l') =
      notifyAll new address l++notifyAll new (address+totalLength l) l' := by
  induction l generalizing address with
  | nil => rfl
  | cons r l ih =>
    rw [cons_append,notifyAll,notifyAll,ih,append_assoc,totalLength,totalLength,
      map_cons,sum_cons,Nat.add_assoc]

/-- The loop takes regions from the front of the list. -/
theorem freeRegions_spec (l : List MmRegion) (s : AlterState) :
    ∃ taken, (s.remaining=0 → taken=[]) ∧ l=taken++(freeRegions new l s).after ∧
      (freeRegions new l s).newLength=s.newLength+totalLength taken ∧
      totalLength taken≤ s.remaining ∧
      (freeRegions new l s).remaining=s.remaining-totalLength taken ∧
      (freeRegions new l s).currentBase=s.currentBase+totalLength taken ∧
      (freeRegions new l s).calls=s.calls++notifyAll new s.currentBase taken ∧
      ((freeRegions new l s).remaining=0 ∨
        ∀ r∈(freeRegions new l s).after.head?, (freeRegions new l s).remaining<r.length) := by
  induction l generalizing s with
  | nil => exact ⟨[],by simp [freeRegions,totalLength,notifyAll]⟩
  | cons r l ih =>
    rw [freeRegions]
    split
    · rename_i hin
      obtain ⟨taken,-,hl,hnew,hle,hrem,hbase,hcalls,hstop⟩ := ih { s with
        newLength := s.newLength+r.length
        remaining := s.remaining-r.length
        currentBase := s.currentBase+r.length
        calls := s.calls++notify new r s.currentBase r.length }
      have htotal : totalLength (r::taken)=r.length+totalLength taken := by simp [totalLength]
      refine ⟨r::taken,by omega,by rw [cons_append,← hl],?_,?_,?_,?_,?_,hstop⟩
      · rw [hnew,htotal,Nat.add_assoc]
      · simp only at hle
        omega
      · rw [hrem,htotal,Nat.sub_sub]
      · rw [hbase,htotal,Nat.add_assoc]
      · rw [hcalls,notifyAll,append_assoc]
    · rename_i hin
      refine ⟨[],fun _ => rfl,rfl,rfl,Nat.zero_le _,rfl,rfl,by simp [notifyAll],?_⟩
      simp only [head?_cons,mem_some_iff,forall_eq']
      omega

/-- The two passes take a part of the given length from the front of the list. -/
theorem splitFinal_freeRegions (hle : s.remaining≤totalLength l) :
    ∃ part, totalLength part=s.remaining ∧ (s.remaining=0 → part=[]) ∧
      expand l=expand part++expand (splitFinal new (freeRegions new l s)).after ∧
      (splitFinal new (freeRegions new l s)).newLength=s.newLength+s.remaining ∧
      (splitFinal new (freeRegions new l s)).calls=s.calls++notifyAll new s.currentBase part ∧
      (splitFinal new (freeRegions new l s)).after.map MmRegion.attributes <:+
        l.map MmRegion.attributes := by
  obtain ⟨taken,hnil,hl,hnew,htaken,hrem,hbase,hcalls,hstop⟩ :=
    @freeRegions_spec new l s
  generalize freeRegions new l s=t at *
  have hsuffix : t.after.map MmRegion.attributes <:+ l.map MmRegion.attributes :=
    ⟨taken.map MmRegion.attributes,by rw [← map_append,← hl]⟩
  have hexpand : expand l=expand taken++expand t.after := by rw [← expand_append,← hl]
  have htotal : totalLength l=totalLength taken+totalLength t.after := by
    rw [← length_expand,hexpand,length_append,length_expand,length_expand]
  unfold splitFinal
  cases hafter : t.after with
  | nil =>
    have hzero : totalLength t.after=0 := by rw [hafter]; rfl
    rw [hafter] at hexpand hsuffix
    simp only
    exact ⟨taken,by omega,hnil,by rw [hafter]; exact hexpand,by omega,hcalls,by rwa [hafter]⟩
  | cons r rest =>
    rw [hafter] at hexpand hsuffix hstop
    simp only
    split
    · rename_i hpos
      have hlt : t.remaining<r.length := by
        obtain hzero | hlt := hstop
        · omega
        · exact hlt r rfl
      have hlast : totalLength (taken++[{ r with length := t.remaining }]) =
          totalLength taken+t.remaining := by simp [totalLength]
      refine ⟨taken++[{ r with length := t.remaining }],by omega,by omega,?_,?_,?_,?_⟩
      · have hsum : r.length=t.remaining+(r.length-t.remaining) := by omega
        rw [hexpand,expand_cons,expand_append,expand_cons,expand_cons,expand_nil,
          append_nil,append_assoc,← append_assoc (List.replicate t.remaining _),
          ← replicate_add,← hsum]
      · simp only
        omega
      · simp only [notifyAll_append,notifyAll,append_nil]
        rw [hcalls,hbase,append_assoc]
        rfl
      · simpa using hsuffix
    · rename_i hpos
      exact ⟨taken,by omega,hnil,by rw [hafter]; exact hexpand,by omega,hcalls,
        by rwa [hafter]⟩

end Pass

section Merge
variable {r : MmRegion} {l before : List MmRegion}

theorem expand_mergeNext (r : MmRegion) (l : List MmRegion) :
    expand (mergeNext r l)=expand (r::l) := by
  cases l with
  | nil => rfl
  | cons s l =>
    rw [mergeNext]
    split
    · rename_i heq
      simp only [expand_cons,heq,replicate_add,append_assoc]
    · rfl

/-- The new region is the first one after the first join, and the next one is different. -/
theorem mergeNext_cons (r : MmRegion) (hl : Distinct l) :
    ∃ n l', mergeNext r l=⟨r.attributes,n⟩::l' ∧ Distinct (⟨r.attributes,n⟩::l') := by
  cases l with
  | nil => exact ⟨r.length,[],rfl,.singleton _⟩
  | cons s l =>
    rw [mergeNext]
    split
    · rename_i heq
      refine ⟨r.length+s.length,l,rfl,?_⟩
      cases l with
      | nil => exact .singleton _
      | cons t l =>
        obtain ⟨hst,hl'⟩ := isChain_cons_cons.mp hl
        exact isChain_cons_cons.mpr ⟨heq ▸ hst,hl'⟩
    · rename_i hne
      exact ⟨r.length,s::l,rfl,isChain_cons_cons.mpr ⟨Ne.symm hne,hl⟩⟩

theorem expand_mergePrevious (before : List MmRegion) (l : List MmRegion) :
    expand (mergePrevious before l)=expand (before++l) := by
  cases l with
  | nil => simp [mergePrevious]
  | cons r l =>
    rw [mergePrevious]
    obtain rfl | ⟨P,p,rfl⟩ := eq_nil_or_concat before
    · rfl
    · simp only [concat_eq_append,getLast?_concat,dropLast_concat]
      split
      · rename_i heq
        simp only [expand_append,expand_cons,expand_nil,heq,append_assoc,append_nil]
        rw [Nat.add_comm,replicate_add,append_assoc]
      · rfl

theorem distinct_mergePrevious (hb : Distinct before) (hl : Distinct (r::l)) :
    Distinct (mergePrevious before (r::l)) := by
  rw [mergePrevious]
  obtain rfl | ⟨P,p,rfl⟩ := eq_nil_or_concat before
  · exact hl
  · simp only [concat_eq_append,getLast?_concat,dropLast_concat] at hb ⊢
    split
    · rename_i heq
      obtain ⟨hP,-,hPp⟩ := isChain_append.mp hb
      refine isChain_append.mpr ⟨hP,?_,fun x hx y hy => ?_⟩
      · cases l with
        | nil => exact .singleton _
        | cons t l =>
          obtain ⟨hrt,hl'⟩ := isChain_cons_cons.mp hl
          exact isChain_cons_cons.mpr ⟨hrt,hl'⟩
      · obtain rfl := mem_some_iff.mp hy
        have hxp := hPp x hx p rfl
        rwa [heq] at hxp
    · rename_i hne
      refine isChain_append.mpr ⟨hb,hl,fun x hx y hy => ?_⟩
      rw [getLast?_concat] at hx
      obtain rfl := mem_some_iff.mp hx
      obtain rfl := mem_some_iff.mp hy
      exact hne

end Merge

def overwrite {α : Type*} (l : List α) (k n : Nat) (x : α) : List α :=
  l.take k++List.replicate n x++l.drop (k+n)

theorem overwrite_append {α : Type*} (A B : List α) (n : Nat) (x : α) :
    overwrite (A++B) A.length n x=A++List.replicate n x++B.drop n := by
  rw [overwrite,drop_append]
  simp

section
variable {α : Type*} {l : List α} {k n : Nat} (h : k+n≤l.length) (x : α)
include h

theorem length_overwrite : (overwrite l k n x).length=l.length := by
  simp only [overwrite,length_append,length_take,length_replicate,length_drop]
  omega

theorem getElem?_overwrite (i : Nat) :
    (overwrite l k n x)[i]?=if k ≤ i ∧ i<k+n then some x else l[i]? := by
  have htake : (l.take k).length=k := by rw [length_take]; omega
  rw [overwrite,append_assoc]
  by_cases h1 : i<k
  · rw [if_neg (by omega),getElem?_append_left (by omega),getElem?_take_of_lt h1]
  · rw [getElem?_append_right (by omega)]
    by_cases h2 : i<k+n
    · rw [if_pos ⟨by omega,h2⟩,getElem?_append_left (by rw [length_replicate]; omega)]
      exact getElem?_replicate_of_lt (by omega)
    · rw [if_neg (by omega),getElem?_append_right (by rw [length_replicate]; omega),
        length_replicate,getElem?_drop]
      congr 1
      omega

end

section Alter
variable {new : RegionAttributes} {base start length remaining : Nat} {l l' : List MmRegion}
  {calls : List AlterCall} {p : RegionPlace} {memory : Bool}

/-- The list and the calls from the new region on. -/
theorem alterFrom_spec (hle : remaining≤totalLength p.after) :
    ∃ part, (remaining=0 → part=[]) ∧ expand part=(expand p.after).take remaining ∧
      expand (alterFrom new p start remaining calls).1=expand p.before ++
        (List.replicate (p.region.length+remaining) new++(expand p.after).drop remaining) ∧
      (alterFrom new p start remaining calls).2 =
        calls++notifyAll new (start+p.region.length) part ∧
      (Distinct p.before → Distinct p.after →
        Distinct (alterFrom new p start remaining calls).1) := by
  obtain ⟨part,hpart,hnil,hexpand,hnew,hcalls,hsuffix⟩ := @splitFinal_freeRegions new p.after
    ⟨p.region.length,[],remaining,start+p.region.length,calls⟩ hle
  have hlength : (expand part).length=remaining := by rw [length_expand,hpart]
  unfold alterFrom
  simp only at hnew hcalls ⊢
  generalize splitFinal new (freeRegions new p.after
    ⟨p.region.length,[],remaining,start+p.region.length,calls⟩)=t at *
  refine ⟨part,hnil,?_,?_,hcalls,fun hb ha => ?_⟩
  · rw [hexpand,← hlength,take_left]
  · rw [expand_mergePrevious,expand_append,expand_mergeNext,expand_cons,hnew,hexpand,← hlength,
      drop_left]
  · have hafter : Distinct t.after := by
      rw [distinct_iff] at ha ⊢
      exact ha.suffix hsuffix
    obtain ⟨n,rest,heq,hrest⟩ := mergeNext_cons ⟨new,t.newLength⟩ hafter
    rw [heq]
    exact distinct_mergePrevious hb hrest

section
variable (hp : mmFindRegion base l start=some p) (hend : start+length≤base+totalLength l)
include hp hend

/-- The first region of the range has other attributes and is split. -/
theorem alterFrom_split (hne : p.region.attributes≠new) :
    let q := mmSplitRegion new p start length
    let r := alterFrom new q.1 start (length-q.1.region.length) [q.2]
    ∃ Q, expand Q=((expand l).drop (start-base)).take length ∧ r.2=notifyAll new start Q ∧
      expand r.1=overwrite (expand l) (start-base) length new ∧ (Distinct l → Distinct r.1) := by
  obtain ⟨hl,hbase,hle,hlt⟩ := mmFindRegion_eq_some hp
  intro q r
  have hq1 : q.1.region=⟨new,min (p.base+p.region.length-start) length⟩ := rfl
  -- the part of the region before the range, and what lies behind it
  let k := start-p.base
  let B := List.replicate (p.region.length-k) p.region.attributes++expand p.after
  have hE : expand l=(expand p.before++List.replicate k p.region.attributes)++B := by
    have hsum : p.region.length=k+(p.region.length-k) := by omega
    rw [hl,expand_append,expand_cons,append_assoc,← append_assoc (List.replicate k _),
      ← replicate_add,← hsum]
  have hA : (expand p.before++List.replicate k p.region.attributes).length=start-base := by
    rw [length_append,length_expand,length_replicate]
    omega
  have hbefore : expand q.1.before=expand p.before++List.replicate k p.region.attributes := by
    change expand (p.before++if p.base=start then [] else _)=_
    rw [expand_append]
    split
    · rename_i heq
      have hk : k=0 := by omega
      rw [hk]
      rfl
    · simp [k]
  -- what lies behind the range in that region becomes a region of its own
  have hB : B=List.replicate q.1.region.length p.region.attributes++expand q.1.after := by
    change _=_++expand ((if start+length<p.base+p.region.length then _ else [])++p.after)
    rw [hq1,expand_append,← append_assoc]
    refine congrArg (· ++ expand p.after) ?_
    split
    · have hmin : min (p.base+p.region.length-start) length=length := by omega
      have hsum : p.region.length-k=length+(p.base+p.region.length-(start+length)) := by
        omega
      simp only [hmin,expand_cons,expand_nil,append_nil]
      rw [hsum,replicate_add]
    · have hmin : min (p.base+p.region.length-start) length=p.region.length-k := by omega
      rw [hmin,expand_nil,append_nil]
  have htotal : totalLength l=start-base+(q.1.region.length+totalLength q.1.after) := by
    rw [← length_expand,hE,length_append,hA,hB,length_append,length_replicate,length_expand]
  have hregion : q.1.region.length≤length := Nat.min_le_right _ _
  have hsum : q.1.region.length+(length-q.1.region.length)=length := by omega
  obtain ⟨part,-,hpart,hexpand,hcalls,hdistinct⟩ := @alterFrom_spec new start
    (length-q.1.region.length) [q.2] q.1 (by omega)
  refine ⟨⟨p.region.attributes,q.1.region.length⟩::part,?_,?_,?_,fun hd => hdistinct ?_ ?_⟩
  · have htake : B.take length=List.replicate q.1.region.length p.region.attributes ++
        (expand q.1.after).take (length-q.1.region.length) := by
      rw [hB,take_append,length_replicate,take_replicate,Nat.min_eq_right hregion]
    rw [expand_cons,hpart,hE,← hA,drop_left,htake]
  · rw [hcalls,notifyAll,notify,if_neg hne]
    rfl
  · have hdrop : B.drop length=(expand q.1.after).drop (length-q.1.region.length) := by
      rw [hB,drop_append,length_replicate,drop_replicate,
        Nat.sub_eq_zero_of_le hregion,replicate_zero,nil_append]
    rw [hexpand,hbefore,hE,← hA,overwrite_append,hdrop,hsum]
    simp
  · rw [hl] at hd
    change Distinct (p.before++if p.base=start then [] else _)
    split
    · rw [append_nil]
      exact (isChain_append.mp hd).1
    · have hinit : Distinct (p.before++[p.region]) :=
        hd.prefix ⟨p.after,by rw [append_assoc,singleton_append]⟩
      rw [distinct_iff] at hinit ⊢
      simpa using hinit
  · have hrest : Distinct (p.region::p.after) := (isChain_append.mp (hl ▸ hd)).2.1
    change Distinct ((if start+length<p.base+p.region.length then _ else [])++p.after)
    split
    · rw [distinct_iff] at hrest ⊢
      exact hrest
    · exact hrest.tail

/-- The first region of the range has the new attributes already and takes in the rest of the
range. -/
theorem alterFrom_same (heq : p.region.attributes=new) :
    let r := alterFrom new p start (start+length-(p.base+p.region.length)) []
    ∃ Q, expand Q=((expand l).drop (start-base)).take length ∧
      r.2=notifyAll new (start+(start-p.base)) Q ∧
      expand r.1=overwrite (expand l) (start-base) length new ∧ (Distinct l → Distinct r.1) := by
  obtain ⟨hl,hbase,hle,hlt⟩ := mmFindRegion_eq_some hp
  let k := start-p.base
  let B := List.replicate (p.region.length-k) new++expand p.after
  have hE : expand l=(expand p.before++List.replicate k new)++B := by
    have hsum : p.region.length=k+(p.region.length-k) := by omega
    rw [hl,expand_append,expand_cons,heq,append_assoc,
      ← append_assoc (List.replicate k _),← replicate_add,← hsum]
  have hA : (expand p.before++List.replicate k new).length=start-base := by
    rw [length_append,length_expand,length_replicate]
    omega
  have htotal : totalLength l=start-base+(p.region.length-k+totalLength p.after) := by
    rw [← length_expand,hE,length_append,hA,length_append,length_replicate,length_expand]
  have hremaining : start+length-(p.base+p.region.length)=length-(p.region.length-k) := by
    omega
  obtain ⟨part,hnil,hpart,hexpand,hcalls,hdistinct⟩ := @alterFrom_spec new start
    (start+length-(p.base+p.region.length)) [] p (by omega)
  refine ⟨⟨new,min length (p.region.length-k)⟩::part,?_,?_,?_,fun hd => hdistinct ?_ ?_⟩
  · rw [expand_cons,hpart,hE,← hA,drop_left,take_append,length_replicate,take_replicate,hremaining]
  · rw [hcalls,notifyAll,notify,if_pos rfl]
    by_cases hzero : start+length-(p.base+p.region.length)=0
    · rw [hnil hzero]
      rfl
    · have hat : start+k+min length (p.region.length-k)=start+p.region.length := by omega
      rw [hat]
  · have hsum : p.region.length+(start+length-(p.base+p.region.length)) =
        k+(length+(p.region.length-k-length)) := by omega
    rw [hexpand,hE,← hA,overwrite_append,drop_append,length_replicate,
      drop_replicate,hsum,replicate_add,replicate_add,hremaining]
    simp only [append_assoc]
  · exact (isChain_append.mp (hl ▸ hd)).1
  · exact (isChain_append.mp (hl ▸ hd)).2.1.tail

/-- What a successful call does to the attributes of the addresses, and what it tells the caller: if
the first region has the new attributes already, the calls are for addresses too high by what that
region has before the range. -/
theorem mmAlterRegion_success
    (h : mmAlterRegion new base l start length memory=some (.success, l', calls)) :
    ∃ Q, expand Q=((expand l).drop (start-base)).take length ∧
      calls=notifyAll new
        (start+if p.region.attributes=new then start-p.base else 0) Q ∧
      expand l'=overwrite (expand l) (start-base) length new ∧ (Distinct l → Distinct l') := by
  rw [mmAlterRegion,hp,map_some] at h
  have h := Option.some.inj h
  by_cases heq : p.region.attributes=new
  · rw [if_neg (not_not_intro heq)] at h
    obtain ⟨rfl,rfl⟩ := Prod.mk.inj (Prod.mk.inj h).2
    rw [if_pos heq]
    exact alterFrom_same hp hend heq
  · rw [if_pos heq] at h
    cases memory with
    | false => exact absurd (congrArg Prod.fst h) (by simp)
    | true =>
      obtain ⟨rfl,rfl⟩ := Prod.mk.inj (Prod.mk.inj h).2
      rw [if_neg heq]
      exact alterFrom_split hp hend heq

end

theorem mmAlterRegion_memory {status : AlterStatus}
    (h : mmAlterRegion new base l start length true=some (status, l', calls)) :
    status = .success := by
  obtain ⟨p,-,h⟩ := map_eq_some_iff.mp h
  split at h
  · exact (Prod.mk.inj h).1.symm
  · exact (Prod.mk.inj h).1.symm

theorem mmAlterRegion_noMemory
    (h : mmAlterRegion new base l start length memory=some (.noMemory, l', calls)) : l'=l := by
  obtain ⟨p,-,h⟩ := map_eq_some_iff.mp h
  split at h
  · split at h
    · exact absurd (congrArg Prod.fst h) (by simp)
    · exact (Prod.mk.inj (Prod.mk.inj h).2).1.symm
  · exact absurd (congrArg Prod.fst h) (by simp)

/-- `MmAlterRegion` gives a range of addresses new attributes: the list covers the same memory, the
other addresses keep their attributes, and neighbours stay different. Without memory the list stays
as it is. -/
theorem mmAlterRegion_map (new : RegionAttributes) (base : Nat) (l : List MmRegion)
    (start length : Nat) (memory : Bool) (hbase : base≤ start) (hstart : start<base+totalLength l)
    (hend : start+length≤base+totalLength l) :
    ∃ status l' calls, mmAlterRegion new base l start length memory=some (status, l', calls) ∧
      (memory=true → status = .success) ∧
      (status = .success → totalLength l'=totalLength l ∧
        (∀ a, attributesAt base l' a =
          if start≤a ∧ a<start+length then some new else attributesAt base l a) ∧
        (Distinct l → Distinct l')) ∧
      (status = .noMemory → l'=l) := by
  obtain ⟨p,hp⟩ := exists_mmFindRegion hbase hstart
  obtain ⟨⟨status,l',calls⟩,hrun⟩ :
      ∃ result, mmAlterRegion new base l start length memory=some result := by
    rw [mmAlterRegion,hp]
    exact ⟨_,rfl⟩
  refine ⟨status,l',calls,hrun,?_,?_,?_⟩
  · intro hmemory
    exact mmAlterRegion_memory (hmemory ▸ hrun)
  · intro hstatus
    subst hstatus
    obtain ⟨-,-,-,hexpand,hdistinct⟩ := mmAlterRegion_success hp hend hrun
    have hroom : start-base+length≤(expand l).length := by rw [length_expand]; omega
    refine ⟨?_,fun a => ?_,hdistinct⟩
    · rw [← length_expand,hexpand,length_overwrite hroom,length_expand]
    · rw [attributesAt_eq,attributesAt_eq,hexpand,getElem?_overwrite hroom]
      by_cases hle : base≤a
      · have hiff : start-base≤a-base ∧ a-base<start-base+length ↔
            start≤a ∧ a<start+length := by omega
        simp only [hle,if_true,hiff]
      · simp only [hle,if_false]
        rw [if_neg (by omega)]
  · intro hstatus
    exact mmAlterRegion_noMemory (hstatus ▸ hrun)

/-- A range over the end of one region and the beginning of the next. -/
theorem mmAlterRegion_map_two_regions :
    let l : List MmRegion := [⟨⟨1,2⟩,8⟩,⟨⟨3,4⟩,8⟩]
    (100≤104 ∧ 104<100+totalLength l ∧ 104+8≤100+totalLength l) ∧
      ∃ status l' calls, mmAlterRegion ⟨5,6⟩ 100 l 104 8 true=some (status, l', calls) ∧
        (true=true → status = .success) ∧
        (status = .success → totalLength l'=totalLength l ∧
          (∀ a, attributesAt 100 l' a =
            if 104≤a ∧ a<104+8 then some ⟨5,6⟩ else attributesAt 100 l a) ∧
          (Distinct l → Distinct l')) ∧
        (status = .noMemory → l'=l) :=
  ⟨by decide,mmAlterRegion_map ⟨5,6⟩ 100 _ 104 8 true (by decide) (by decide) (by decide)⟩

end Alter

end Odyssey.Mm
