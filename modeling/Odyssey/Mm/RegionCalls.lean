import Odyssey.Mm.Region

/-! The calls of the `AlterFunc` that one `MmAlterRegion` makes, against the addresses whose
attributes really change. -/
namespace Odyssey.Mm
open List

def AlterCall.Covers (c : AlterCall) (a : Nat) : Prop := c.address≤a ∧ a<c.address+c.length

/-- The calls are for the addresses of the range whose attributes change, each once and with the
attributes that it had. -/
structure NotifiesChanges (new : RegionAttributes) (base : Nat) (l : List MmRegion)
    (start length : Nat)
    (calls : List AlterCall) : Prop where
  disjoint : calls.Pairwise fun c d => ∀ a, c.Covers a → ¬ d.Covers a
  inside : ∀ c∈calls, ∀ a, c.Covers a → start≤a ∧ a<start+length
  changed : ∀ c∈calls, ∀ a, c.Covers a →
    attributesAt base l a=some c.old ∧ c.old≠new ∧ c.new=new
  complete : ∀ a, start≤a → a<start+length → attributesAt base l a≠some new →
    ∃ c∈calls, c.Covers a

section Calls
variable {new : RegionAttributes} {base start length : Nat} {l l' Q : List MmRegion}
  {calls : List AlterCall} {p : RegionPlace} {memory : Bool} {x : RegionAttributes} {a : Nat}
  {c : AlterCall} {address : Nat}

theorem mem_notify {r : MmRegion} :
    c∈notify new r address r.length ↔
      r.attributes≠new ∧ c=⟨address,r.length,r.attributes,new⟩ := by
  rw [notify]
  split
  · rename_i heq
    simp [heq]
  · rename_i hne
    simp [hne]

theorem notifyAll_covers (hc : c∈notifyAll new address Q) (ha : c.Covers a) :
    address≤a ∧ (expand Q)[a-address]?=some c.old ∧ c.old≠new ∧ c.new=new := by
  induction Q generalizing address with
  | nil => simp [notifyAll] at hc
  | cons r Q ih =>
    obtain hc | hc := mem_append.mp hc
    · obtain ⟨hne,rfl⟩ := mem_notify.mp hc
      have hlt : a-address<r.length := by
        have h := ha.2
        have h' := ha.1
        simp only at h h'
        omega
      refine ⟨ha.1,?_,hne,rfl⟩
      rw [expand_cons,getElem?_append_left (by rwa [length_replicate])]
      exact getElem?_replicate_of_lt hlt
    · obtain ⟨hle,hold,hrest⟩ := ih hc
      refine ⟨by omega,?_,hrest⟩
      rw [expand_cons,getElem?_append_right (by rw [length_replicate]; omega),
        length_replicate,← hold]
      congr 1
      omega

theorem exists_notifyAll_covers {address a : Nat} (hle : address≤a)
    (hx : (expand Q)[a-address]?=some x) (hne : x≠new) :
    ∃ c∈notifyAll new address Q, c.Covers a := by
  induction Q generalizing address with
  | nil => simp at hx
  | cons r Q ih =>
    rw [expand_cons] at hx
    by_cases hlt : a-address<r.length
    · rw [getElem?_append_left (by rwa [length_replicate]),getElem?_replicate_of_lt hlt] at hx
      have hr : r.attributes≠new := fun heq => hne (Option.some.inj hx ▸ heq)
      exact ⟨_,mem_append_left _ (mem_notify.mpr ⟨hr,rfl⟩),hle,by simp only; omega⟩
    · rw [getElem?_append_right (by rw [length_replicate]; omega),length_replicate] at hx
      have hsub : a-(address+r.length)=a-address-r.length := by omega
      obtain ⟨c,hc,hcovers⟩ := ih (by omega : address+r.length≤a) (by rw [hsub]; exact hx)
      exact ⟨c,mem_append_right _ hc,hcovers⟩

theorem pairwise_notifyAll (address : Nat) (Q : List MmRegion) :
    (notifyAll new address Q).Pairwise fun c d => ∀ a, c.Covers a → ¬ d.Covers a := by
  induction Q generalizing address with
  | nil => exact .nil
  | cons r Q ih =>
    refine pairwise_append.mpr ⟨?_,ih _,fun c hc d hd a hca hda => ?_⟩
    · rw [notify]
      split
      · exact .nil
      · exact pairwise_singleton _ _
    · obtain ⟨-,rfl⟩ := mem_notify.mp hc
      have hlt := hca.2
      have hle := (notifyAll_covers hd hda).1
      simp only at hlt
      omega

section

variable (hQ : expand Q=((expand l).drop (start-base)).take length)
include hQ

/-- The attributes of the addresses of the range. -/
theorem attributesAt_slice
    (hbase : base≤ start) (hle : start≤a) (hlt : a<start+length) :
    attributesAt base l a=(expand Q)[a-start]? := by
  rw [attributesAt_eq,if_pos (hbase.trans hle),hQ,getElem?_take_of_lt (by omega),getElem?_drop]
  congr 1
  omega

theorem lt_of_slice (hx : (expand Q)[a-start]?=some x) : a<start+length := by
  have hlt := (List.getElem?_eq_some_iff.mp hx).1
  rw [hQ,List.length_take] at hlt
  omega

/-- Calls for the regions of the range, from its start on, are the right ones. -/
theorem notifiesChanges_notifyAll
    (hbase : base≤ start) (hend : start+length≤base+totalLength l) :
    NotifiesChanges new base l start length (notifyAll new start Q) where
  disjoint := pairwise_notifyAll start Q
  inside c hc a ha := by
    obtain ⟨hle,hold,-⟩ := notifyAll_covers hc ha
    exact ⟨hle,lt_of_slice hQ hold⟩
  changed c hc a ha := by
    obtain ⟨hle,hold,hrest⟩ := notifyAll_covers hc ha
    exact ⟨(attributesAt_slice hQ hbase hle (lt_of_slice hQ hold)).trans hold,hrest⟩
  complete a hle hlt hne := by
    rw [attributesAt_slice hQ hbase hle hlt] at hne
    have hin : a-start<(expand Q).length := by
      rw [hQ,length_take,length_drop,length_expand]
      omega
    rw [getElem?_eq_getElem hin] at hne
    exact exists_notifyAll_covers hle (getElem?_eq_getElem hin)
      (fun heq => hne (congrArg some heq))

/-- Calls for addresses that are too high miss the first address that changes. -/
theorem not_notifiesChanges_of_shift {shift : Nat} (hbase : base≤ start) (hshift : 0<shift)
    (hchange : ∃ a, start≤a ∧ a<start+length ∧ attributesAt base l a≠some new) :
    ¬ NotifiesChanges new base l start length (notifyAll new (start+shift) Q) := by
  intro hcalls
  -- a call for the first address is one for an address that comes earlier in the range
  obtain ⟨hle,hlt,hne⟩ := Nat.find_spec hchange
  obtain ⟨c,hc,hcovers⟩ := hcalls.complete _ hle hlt hne
  obtain ⟨hfrom,hold,hnew,-⟩ := notifyAll_covers hc hcovers
  have hearlier : start≤Nat.find hchange-shift := by omega
  have hbefore : Nat.find hchange-shift<start+length := by omega
  have hmin : Nat.find hchange-shift<Nat.find hchange := by omega
  refine Nat.find_min hchange hmin ⟨hearlier,hbefore,?_⟩
  have hsub : Nat.find hchange-shift-start=Nat.find hchange-(start+shift) := by omega
  rw [attributesAt_slice hQ hbase hearlier hbefore,hsub,hold]
  exact fun heq => hnew (Option.some.inj heq)

/-- If nothing of the range changes, calls for its regions are for no address at all. -/
theorem notifiesChanges_of_unchanged (hbase : base≤ start)
    (hsame : ∀ a, start≤a → a<start+length → attributesAt base l a=some new) (shift : Nat) :
    NotifiesChanges new base l start length (notifyAll new (start+shift) Q) := by
  have hnone : ∀ c∈notifyAll new (start+shift) Q, ∀ a, ¬ c.Covers a := by
    intro c hc a ha
    obtain ⟨hfrom,hold,hne,-⟩ := notifyAll_covers hc ha
    have hle : start≤a-shift := by omega
    have hsub : a-(start+shift)=a-shift-start := by omega
    rw [hsub] at hold
    have hlt := lt_of_slice hQ hold
    rw [← attributesAt_slice hQ hbase hle hlt,hsame _ hle hlt] at hold
    exact hne (Option.some.inj hold).symm
  exact {
    disjoint := pairwise_notifyAll _ Q
    inside := fun c hc a ha => absurd ha (hnone c hc a)
    changed := fun c hc a ha => absurd ha (hnone c hc a)
    complete := fun a hle hlt hne => absurd (hsame a hle hlt) hne }

end

/-- The region of the first address has the new attributes already and begins before the range, and
the range has addresses whose attributes change. -/
def BeginsInside (new : RegionAttributes) (base : Nat) (l : List MmRegion) (start length : Nat) :
    Prop :=
  ∃ p, mmFindRegion base l start=some p ∧ p.region.attributes=new ∧ p.base<start ∧
    ∃ a, start≤a ∧ a<start+length ∧ attributesAt base l a≠some new

end Calls

/-- The calls of a successful `MmAlterRegion` are for the addresses that change, unless the range
begins inside a region that has the new attributes: `CurrentBaseAddress` is the start of the range
and the whole length of that region. -/
theorem mmAlterRegion_notifies_iff (new : RegionAttributes) (base : Nat) (l : List MmRegion)
    (start length : Nat) (memory : Bool) (l' : List MmRegion) (calls : List AlterCall)
    (hbase : base≤ start) (hstart : start<base+totalLength l)
    (hend : start+length≤base+totalLength l)
    (h : mmAlterRegion new base l start length memory=some (.success, l', calls)) :
    NotifiesChanges new base l start length calls ↔ ¬ BeginsInside new base l start length := by
  obtain ⟨p,hp⟩ := exists_mmFindRegion hbase hstart
  obtain ⟨Q,hQ,hcalls,-⟩ := mmAlterRegion_success hp hend h
  constructor
  · intro hnotifies hinside
    obtain ⟨q,hq,heq,hlt,hchange⟩ := hinside
    obtain rfl := Option.some.inj (hp.symm.trans hq)
    rw [hcalls,if_pos heq] at hnotifies
    exact not_notifiesChanges_of_shift hQ hbase (by omega) hchange hnotifies
  · intro hinside
    by_cases hshift : (if p.region.attributes=new then start-p.base else 0)=0
    · rw [hcalls,hshift]
      exact notifiesChanges_notifyAll hQ hbase hend
    · -- the range begins inside the region, so no address of it changes
      split at hshift
      · rename_i heq
        rw [hcalls]
        refine notifiesChanges_of_unchanged hQ hbase (fun a hle hlt => ?_) _
        by_contra hne
        exact hinside ⟨p,hp,heq,by omega,a,hle,hlt,hne⟩
      · exact absurd rfl hshift

/-- The range has the last quarter of a region and a region that changes. -/
theorem mmAlterRegion_notifies_split :
    let l : List MmRegion := [⟨⟨1,2⟩,16⟩,⟨⟨3,4⟩,8⟩]
    (100≤112 ∧ 112<100+totalLength l ∧ 112+12≤100+totalLength l) ∧
      (NotifiesChanges ⟨5,6⟩ 100 l 112 12 [⟨112,4,⟨1,2⟩,⟨5,6⟩⟩,⟨116,8,⟨3,4⟩,⟨5,6⟩⟩] ↔
        ¬ BeginsInside ⟨5,6⟩ 100 l 112 12) :=
  ⟨by decide,mmAlterRegion_notifies_iff ⟨5,6⟩ 100 _ 112 12 true [⟨⟨1,2⟩,12⟩,⟨⟨5,6⟩,12⟩] _
    (by decide) (by decide) (by decide) (by decide)⟩

/-- The range has the second half of a region with the new attributes and a region without them: the
call is for the addresses from 124 on, where the list ends. -/
theorem mmAlterRegion_notifies_shifted :
    let l : List MmRegion := [⟨⟨1,2⟩,16⟩,⟨⟨3,4⟩,8⟩]
    mmAlterRegion ⟨1,2⟩ 100 l 108 16 true =
        some (.success, [⟨⟨1,2⟩,24⟩], [⟨124,8,⟨3,4⟩,⟨1,2⟩⟩]) ∧
      ¬ NotifiesChanges ⟨1,2⟩ 100 l 108 16 [⟨124,8,⟨3,4⟩,⟨1,2⟩⟩] := by
  refine ⟨by decide,fun h => ?_⟩
  have hin := h.inside _ mem_cons_self 124 ⟨Nat.le_refl _,by decide⟩
  exact absurd hin.2 (by decide)

end Odyssey.Mm
