import Odyssey.Mm.VadRange

/-! What the search from the lowest address on finds and what it misses. `Length + PAGE_SIZE - 1`
can wrap, the gap below the first VAD is used only if it is larger than the range, and the bounds
of the address space are checked behind the last VAD only. -/
namespace Odyssey.Mm
open Odyssey.Avl AvlTree List

section Sound
variable {v : VadTable} {t : BTree Addr} {k n s length alignment : Nat} {A B : List Addr}

def VadTable.Has (v : VadTable) (address : Nat) (a : Addr) : Prop :=
  v.startingVpn a≤address/4096 ∧ address/4096≤v.endingVpn a

/-- What a found range has to be. Its addresses are those of a 32-bit address space, and the VAD
to insert behind is the last one below the range, NULL if there is none. -/
structure SoundRange (v : VadTable) (t : BTree Addr) (length alignment : Nat) (previous : Addr)
    (base : Nat) : Prop where
  aligned : alignment ∣ base
  free : ∀ i<length, ∀ a∈t.toList, ¬v.Has ((base+i)%2^32) a
  previous : previous=(t.toList.filter fun a => v.startingVpn a*4096<base).getLastD 0

section
variable (g : GapAt v t.toList k n s A B) (h : VadTree v t)
include g h

theorem GapAt.filter_eq :
    (t.toList.filter fun a => v.startingVpn a*4096<s*4096)=A := by
  have hA : ∀ a∈A, v.startingVpn a*4096<s*4096 := by
    intro a ha
    have := (h.range a (by simp [g.split,ha])).1
    have := g.before a ha
    omega
  have hB : ∀ b∈B, ¬v.startingVpn b*4096<s*4096 := by
    intro b hb
    have := (g.behind b hb).1
    omega
  rw [g.split,filter_append,filter_eq_self.mpr (by simpa using hA),
    filter_eq_nil_iff.mpr (by simpa using hB),append_nil]

theorem GapAt.not_has {i : Nat} (hi : i<n*4096) {a : Addr} (ha : a∈t.toList) :
    ¬v.Has ((s*4096+i)%2^32) a := by
  have hle := g.le h (ne_nil_of_mem ha)
  intro hin
  obtain ⟨h1,h2⟩ := hin
  rw [g.split] at ha
  obtain ha | ha := mem_append.mp ha
  · have := g.before a ha
    omega
  · have := g.behind a ha
    omega

end

/-- For every length that its caller lets through, a range that the search finds is aligned, meets
no VAD and comes with the VAD below it. -/
theorem search_sound (h : VadTree v t) (hal : IsAlignment alignment k) (hpos : 0<length)
    (hview : length<pastMaximumViewSize) {previous : Addr} {base : Nat}
    (hr : miFindEmptyAddressRangeInTree v length alignment=some (some (previous, base))) :
    SoundRange v t length alignment previous base := by
  rw [pastMaximumViewSize] at hview
  rw [h.miFindEmptyAddressRangeInTree length hal] at hr
  obtain ⟨A,B,s,g,hprevious,rfl⟩ := h.gapAt hal.lt (Option.some.inj hr)
  refine ⟨?_,fun i hi a ha => g.not_has h (by omega) ha,?_⟩
  · rw [hal.eq]
    exact Nat.mul_dvd_mul_right g.aligned 4096
  · rw [g.filter_eq h]
    exact hprevious

def twoVads : List Action := [.insert 0x2000 16 31,.insert 0x3000 40 40]

theorem exists_process (actions : List Action) {p : AddressSpace → Bool}
    (hl : someProcess.legalRun actions) (hp : (someProcess.run actions).all p) :
    ∃ s t, someProcess.run actions=some s ∧ s.Tree t ∧ p s := by
  have hinit : someProcess.Tree .nil := AddressSpace.tree_init _ (by decide) (by decide) _ _
  obtain ⟨s,t,hrun,h⟩ := hinit.run hl
  rw [hrun] at hp
  exact ⟨s,t,hrun,h,hp⟩

theorem search_sound_two_vads : ∃ s t, someProcess.run twoVads=some s ∧ s.Tree t ∧
    SoundRange s.table t 0x8000 0x1000 0x2000 0x20000 := by
  obtain ⟨s,t,hrun,h,hr⟩ := exists_process twoVads (p := fun s => decide
    (miFindEmptyAddressRangeInTree s.table 0x8000 0x1000=some (some (0x2000, 0x20000))))
    (by decide +kernel) (by decide +kernel)
  exact ⟨s,t,hrun,h,search_sound h.tree (k := 0) ⟨rfl,by decide⟩ (by decide) (by decide +kernel)
    (of_decide_eq_true hr)⟩

end Sound

section Complete
variable {v : VadTable} {t : BTree Addr} {k n s length alignment : Nat} {A B l : List Addr}

/-- An aligned range of `n` pages from page `s` on is free and inside the bounds. -/
structure Fits (v : VadTable) (l : List Addr) (k n s : Nat) : Prop where
  aligned : 2^k ∣ s
  low : mmLowestUserAddress/4096≤ s
  high : s+n≤pastHighestVpn
  free : ∀ b∈l, v.endingVpn b<s ∨ s+n≤v.startingVpn b

/-- The search succeeds exactly when a range fits, and stays below the highest address. -/
def Complete (v : VadTable) (l : List Addr) (k n : Nat) (r : Option (Addr × Nat)) : Prop :=
  (r≠none ↔ ∃ s, Fits v l k n s) ∧
    ∀ previous base, r=some (previous, base) → base+n*4096≤ mmHighestVadAddress+1

/-- A free place for `n` pages behind a VAD, or below the first one with a page to spare. It need
not be inside the bounds: the highest address bounds only what is behind the last VAD. -/
structure Hole (v : VadTable) (l : List Addr) (k n s : Nat) : Prop where
  aligned : 2^k ∣ s
  free : ∀ b∈l, v.endingVpn b<s ∨ s+n≤v.startingVpn b
  place : (∃ a∈l, v.endingVpn a<s) ∧ (s+n≤pastHighestVpn ∨ ∃ b∈l, s+n≤v.startingVpn b) ∨
    mmLowestUserAddress/4096≤ s ∧ ∃ a∈l.head?, s+n<v.startingVpn a

theorem lowest_le (haligned : 2^k ∣ s) (hlow : mmLowestUserAddress/4096≤ s) :
    alignVpn k 16≤ s := alignVpn_le haligned hlow

/-- A free range has the VADs on its two sides. -/
theorem exists_split {l : List Addr} (ho : l.Pairwise fun a b => v.endingVpn a<v.startingVpn b)
    (hr : ∀ a∈l, v.startingVpn a≤v.endingVpn a)
    (hfree : ∀ b∈l, v.endingVpn b<s ∨ s+n≤v.startingVpn b) :
    ∃ A B, l=A++B ∧ (∀ a∈A, v.endingVpn a<s) ∧ ∀ b∈B, s+n≤v.startingVpn b := by
  induction l with
  | nil => exact ⟨[],[],rfl,by simp,by simp⟩
  | cons a l ih =>
    obtain ⟨hal,hl⟩ := pairwise_cons.mp ho
    by_cases ha : v.endingVpn a<s
    · obtain ⟨A,B,rfl,hA,hB⟩ := ih hl (fun b hb => hr b (by simp [hb]))
        fun b hb => hfree b (by simp [hb])
      exact ⟨a::A,B,rfl,by simpa [ha] using hA,hB⟩
    · have hsn := (hfree a (by simp)).resolve_left ha
      refine ⟨[],a::l,rfl,by simp,fun b hb => ?_⟩
      obtain rfl | hb := mem_cons.mp hb
      · exact hsn
      · have := hal b hb
        have := hr a (by simp)
        omega

section
variable (ho : l.Pairwise fun a b => v.endingVpn a<v.startingVpn b)
  (hr : ∀ a∈l, v.startingVpn a≤v.endingVpn a)
include ho hr

theorem startingVpn_head_le {a b : Addr} (ha : a∈l.head?) (hb : b∈l) :
    v.startingVpn a≤v.startingVpn b := by
  cases l with
  | nil => cases hb
  | cons c l =>
    obtain rfl : c=a := by simpa using ha
    obtain rfl | hb := mem_cons.mp hb
    · exact le_rfl
    · exact (hr c (by simp)).trans ((pairwise_cons.mp ho).1 b hb).le

/-- The walk stops at the first gap that takes the range, so at no higher address than behind any
other VAD whose gap takes it. -/
theorem firstGap_le {p : Addr} (hl : l=A++p::B) (hp : Takes v k n p B) :
    ∃ r, firstGap v k n l=some r ∧ r.2≤alignVpn k (v.endingVpn p+1)*4096 := by
  subst hl
  induction A with
  | nil => exact ⟨_,if_pos hp,le_rfl⟩
  | cons a A ih =>
    rw [cons_append] at ho
    obtain ⟨hap,ho⟩ := pairwise_cons.mp ho
    by_cases ha : Takes v k n a (A++p::B)
    · refine ⟨_,if_pos ha,Nat.mul_le_mul_right _ (alignVpn_le (dvd_alignVpn ..) ?_)⟩
      have := hap p (by simp)
      have := hr p (by simp)
      have := le_alignVpn k (v.endingVpn p+1)
      omega
    · obtain ⟨r,hfound,hle⟩ := ih ho fun b hb => hr b (by simp [hb])
      exact ⟨r,(if_neg ha).trans hfound,hle⟩

/-- The search takes no place above a hole. -/
theorem Hole.found (h : Hole v l k n s) (hn : 0<n) :
    ∃ r, emptyRange v k n l=some r ∧ r.2≤ s*4096 := by
  obtain ⟨A,B,rfl,hA,hB⟩ := exists_split ho hr h.free
  have hlow : ∀ b∈A++B, v.endingVpn b<s → b∈A := by
    intro b hb hlt
    refine (mem_append.mp hb).resolve_right fun hb => ?_
    have := hB b hb
    have := hr b (by simp [hb])
    omega
  cases hl : A++B with
  | nil => exact absurd h.place (by simp [hl])
  | cons a l =>
    rw [emptyRange]
    have ha : a∈(A++B).head? := by simp [hl]
    by_cases hgap : alignVpn k 16+n<v.startingVpn a
    · refine ⟨_,if_pos hgap,Nat.mul_le_mul_right _ ?_⟩
      obtain ⟨⟨b,hb,hlt⟩,-⟩ | ⟨h16,-⟩ := h.place
      · have := startingVpn_head_le ho hr ha hb
        have := hr b hb
        omega
      · exact lowest_le h.aligned h16
    · rw [if_neg hgap,← hl]
      obtain ⟨⟨b,hb,hlt⟩,htop⟩ | ⟨h16,c,hc,hlt⟩ := h.place
      · -- the last VAD below the hole has a gap behind it that takes the range
        obtain rfl | ⟨A,p,rfl⟩ := eq_nil_or_concat A
        · exact absurd (hlow b hb hlt) (by simp)
        have hle : alignVpn k (v.endingVpn p+1)≤ s := alignVpn_le h.aligned (hA p (by simp))
        have hend : s+n≤gapEnd v B := by
          cases B with
          | nil =>
            refine htop.resolve_right ?_
            rintro ⟨c,hc,hcs⟩
            have := hA c (by simpa using hc)
            have := hr c hc
            omega
          | cons c B => exact hB c (by simp)
        have hp : Takes v k n p B := ⟨by omega,by omega⟩
        obtain ⟨r,hfound,hr2⟩ := firstGap_le (A := A) ho hr (by simp) hp
        exact ⟨r,hfound,hr2.trans (Nat.mul_le_mul_right _ hle)⟩
      · obtain rfl := Option.some.inj (ha.symm.trans hc)
        have := lowest_le h.aligned h16
        omega

/-- A range that fits is a hole, or lies above one, unless it fills the gap below the first VAD. -/
theorem Fits.hole (h : Fits v l k n s) (hne : l≠[]) :
    (∃ s'≤ s, Hole v l k n s') ∨ s=alignVpn k 16 ∧ ∃ a∈l.head?, v.startingVpn a=s+n := by
  by_cases hlow : ∃ a∈l, v.endingVpn a<s
  · exact .inl ⟨s,le_rfl,h.aligned,h.free,.inl ⟨hlow,.inl h.high⟩⟩
  have habove : ∀ b∈l, s+n≤v.startingVpn b :=
    fun b hb => (h.free b hb).resolve_left fun hlt => hlow ⟨b,hb,hlt⟩
  obtain ⟨a,l,rfl⟩ := exists_cons_of_ne_nil hne
  have ha := habove a (by simp)
  have h16 := lowest_le h.aligned h.low
  by_cases hroom : alignVpn k 16+n<v.startingVpn a
  · refine .inl ⟨_,h16,dvd_alignVpn ..,fun b hb => .inr ?_,.inr ⟨le_alignVpn ..,a,rfl,hroom⟩⟩
    have := habove b hb
    omega
  · exact .inr ⟨by omega,a,rfl,by omega⟩

end

/-- What the search finds among VADs is a hole. -/
theorem GapAt.hole (g : GapAt v l k n s A B) (hne : l≠[]) : Hole v l k n s := by
  refine ⟨g.aligned,fun b hb => ?_,?_⟩
  · rw [g.split] at hb
    obtain hb | hb := mem_append.mp hb
    · exact .inl (g.before b hb)
    · exact .inr (g.behind b hb).2
  · cases hA : A with
    | nil =>
      obtain ⟨rfl,hroom⟩ := g.bottom hA
      have hne : B≠[] := by simpa [g.split,hA] using hne
      obtain ⟨b,B',hB⟩ := exists_cons_of_ne_nil hne
      exact .inr ⟨le_alignVpn ..,b,by simp [g.split,hA,hB],hroom b (by simp [hB])⟩
    | cons a A' =>
      refine .inl ⟨⟨a,by simp [g.split,hA],g.before a (by simp [hA])⟩,?_⟩
      cases hB : B with
      | nil => exact .inl (g.top hne hB)
      | cons b B' => exact .inr ⟨b,by simp [g.split,hB],(g.behind b (by simp [hB])).2⟩

/-- In an empty table the search takes the lowest place, however high it ends. -/
theorem complete_of_nil (hl : l=[]) : Complete v l k n (emptyRange v k n l) ↔
    alignVpn k 16+n≤pastHighestVpn := by
  subst hl
  have hpast : pastHighestVpn*4096=mmHighestVadAddress+1 := by decide
  constructor
  · intro hc
    have := hc.2 _ _ rfl
    omega
  · intro hroom
    refine ⟨⟨fun _ => ⟨_,dvd_alignVpn ..,le_alignVpn ..,hroom,by simp⟩,by simp [emptyRange]⟩,?_⟩
    intro previous base heq
    obtain ⟨-,rfl⟩ := Prod.mk.inj (Option.some.inj heq)
    omega

/-- The search returns, and for a length whose page count does not wrap it is complete exactly
when a range that is asked for in an empty table ends below the highest address, a hole outside
the bounds is there only if a range inside them fits, and a range that fills the gap below the
first VAD is not the only one that fits. -/
theorem search_complete_iff (h : VadTree v t) (hal : IsAlignment alignment k) (hpos : 0<length)
    (hlen : length≤2^32-4096) (hn : n=(length+4095)/4096) :
    ∃ r, miFindEmptyAddressRangeInTree v length alignment=some r ∧
      (Complete v t.toList k n r ↔
        (t.toList=[] → alignVpn k 16+n≤pastHighestVpn) ∧
        (∀ s, Hole v t.toList k n s → s< mmLowestUserAddress/4096 ∨ pastHighestVpn<s+n →
          ∃ s', Fits v t.toList k n s') ∧
        (∀ a∈t.toList.head?, v.startingVpn a=alignVpn k 16+n →
          alignVpn k 16+n≤pastHighestVpn → ∃ s≠alignVpn k 16, Fits v t.toList k n s)) := by
  have hpast : pastHighestVpn*4096=mmHighestVadAddress+1 := by decide
  have hrun := h.miFindEmptyAddressRangeInTree length hal
  rw [show (length+4095)%2^32/4096=n by omega] at hrun
  have hrange : ∀ a∈t.toList, v.startingVpn a≤v.endingVpn a := fun a ha => (h.range a ha).1
  have hfound := fun s (hs : Hole v t.toList k n s) => hs.found h.ordered hrange (by omega)
  refine ⟨_,hrun,?_⟩
  by_cases hne : t.toList=[]
  · have hno : ∀ s, ¬Hole v t.toList k n s := fun s hs => by simpa [hne] using hs.place
    rw [complete_of_nil hne]
    exact ⟨fun hroom => ⟨fun _ => hroom,fun s hs => absurd hs (hno s),by simp [hne]⟩,
      fun hc => hc.1 hne⟩
  constructor
  · intro hc
    refine ⟨fun hnil => absurd hnil hne,fun s hs _ => hc.1.mp ?_,fun a ha hstart hroom => ?_⟩
    · obtain ⟨r,hr,-⟩ := hfound s hs
      simp [hr]
    · have hfits : Fits v t.toList k n (alignVpn k 16) :=
        ⟨dvd_alignVpn ..,le_alignVpn ..,hroom,fun b hb =>
          .inr (hstart ▸ startingVpn_head_le h.ordered hrange ha hb)⟩
      obtain ⟨r,hr⟩ := Option.ne_none_iff_exists'.mp (hc.1.mpr ⟨_,hfits⟩)
      obtain ⟨A,B,s,g,-,hbase⟩ := h.gapAt hal.lt hr
      have hs := g.hole hne
      have hhigh := hc.2 r.1 r.2 hr
      -- the place that was found is behind a VAD, and all of them start above the lowest address
      obtain ⟨⟨b,hb,hlt⟩,-⟩ | ⟨hlow,b,hb,hlt⟩ := hs.place
      · have := startingVpn_head_le h.ordered hrange ha hb
        have := hrange b hb
        have := le_alignVpn k 16
        exact ⟨s,by omega,hs.aligned,show 16≤ s by omega,by omega,hs.free⟩
      · obtain rfl := Option.some.inj (ha.symm.trans hb)
        have := lowest_le hs.aligned hlow
        omega
  · rintro ⟨-,hbounds,hexact⟩
    -- below every range that fits, or below another one, there is a hole
    have hhole : ∀ s, Fits v t.toList k n s →
        ∃ s', Hole v t.toList k n s' ∧ s'+n≤pastHighestVpn := by
      intro s hs
      obtain ⟨s',hle,hs'⟩ | ⟨rfl,a,ha,hstart⟩ := hs.hole h.ordered hrange hne
      · exact ⟨s',hs',by have := hs.high; omega⟩
      · obtain ⟨s,hsne,hs⟩ := hexact a ha hstart hs.high
        obtain ⟨s',hle,hs'⟩ | ⟨rfl,-⟩ := hs.hole h.ordered hrange hne
        · exact ⟨s',hs',by have := hs.high; omega⟩
        · exact absurd rfl hsne
    refine ⟨⟨fun hr => ?_,fun hfits => ?_⟩,fun previous base hr => ?_⟩
    · obtain ⟨r,hr⟩ := Option.ne_none_iff_exists'.mp hr
      obtain ⟨A,B,s,g,-,-⟩ := h.gapAt hal.lt hr
      have hs := g.hole hne
      by_cases hout : s< mmLowestUserAddress/4096 ∨ pastHighestVpn<s+n
      · exact hbounds s hs hout
      · exact ⟨s,hs.aligned,by omega,by omega,hs.free⟩
    · obtain ⟨s,hs⟩ := hfits
      obtain ⟨s',hs',-⟩ := hhole s hs
      obtain ⟨r,hr,-⟩ := hfound s' hs'
      simp [hr]
    · obtain ⟨A,B,s,g,-,rfl⟩ := h.gapAt hal.lt hr
      by_contra hhigh
      obtain ⟨s',hs'⟩ := hbounds s (g.hole hne) (.inr (by omega))
      obtain ⟨s',hs',hle⟩ := hhole s' hs'
      obtain ⟨r,hr',hlow⟩ := hfound s' hs'
      obtain rfl := Option.some.inj (hr.symm.trans hr')
      dsimp only at hlow
      omega

theorem search_complete_two_vads : ∃ s t, someProcess.run twoVads=some s ∧ s.Tree t ∧
    ∃ r, miFindEmptyAddressRangeInTree s.table 0x8000 0x1000=some r ∧
      Complete s.table t.toList 0 8 r := by
  obtain ⟨s,t,hrun,h,hr⟩ := exists_process twoVads (p := fun s => decide
    (s.vads=[0x3000,0x2000] ∧ s.table.startingVpn 0x3000=40 ∧ s.table.endingVpn 0x2000=31))
    (by decide +kernel) (by decide +kernel)
  obtain ⟨hvads,hstart,hend⟩ := of_decide_eq_true hr
  have hfits : Fits s.table t.toList 0 8 32 := by
    refine ⟨by decide,by decide,by decide,fun b hb => ?_⟩
    have hb := h.vads.mem_iff.mpr hb
    rw [hvads] at hb
    obtain rfl | hb := mem_cons.mp hb
    · exact .inr hstart.ge
    · rw [mem_singleton.mp hb,hend]
      exact .inl (by decide)
  obtain ⟨r,hr,hiff⟩ := search_complete_iff h.tree (k := 0) (n := 8) ⟨rfl,by decide⟩
    (by decide : 0<0x8000) (by decide) (by decide)
  exact ⟨s,t,hrun,h,r,hr,hiff.mpr ⟨fun _ => by decide,fun _ _ _ => ⟨32,hfits⟩,
    fun _ _ _ _ => ⟨32,by decide,hfits⟩⟩⟩

/-- All pages from 32 on are in use; the 16 pages below them are not found. -/
theorem search_complete_misses : ∃ s t, someProcess.run [.insert 0x2000 32 0x7FFDF]=some s ∧
    s.Tree t ∧ miFindEmptyAddressRangeInTree s.table 0x10000 0x10000=some none ∧
    Fits s.table t.toList 4 16 16 ∧ ¬Complete s.table t.toList 4 16 none := by
  obtain ⟨s,t,hrun,h,hr⟩ := exists_process [.insert 0x2000 32 0x7FFDF]
    (p := fun s => decide (miFindEmptyAddressRangeInTree s.table 0x10000 0x10000=some none ∧
      s.vads=[0x2000] ∧ s.table.startingVpn 0x2000=32))
    (by decide +kernel) (by decide +kernel)
  obtain ⟨hnone,hvads,hstart⟩ := of_decide_eq_true hr
  have hfits : Fits s.table t.toList 4 16 16 := by
    refine ⟨by decide,by decide,by decide,fun b hb => .inr ?_⟩
    have hb := h.vads.mem_iff.mpr hb
    rw [hvads] at hb
    rw [mem_singleton.mp hb,hstart]
  exact ⟨s,t,hrun,h,hnone,hfits,fun hc => (hc.1.mpr ⟨16,hfits⟩) rfl⟩

end Complete

end Odyssey.Mm
