import Odyssey.Ip.ReassemblySafety

/-! The holes of a reassembly structure and the bytes of the datagram that are missing. A fragment
fills a hole up to its own header length and one more byte behind its payload, so the two agree only
as long as no short gap is left. -/
namespace Odyssey.Ip
open ByteMem List

/-- The fragment carries the byte at offset `x` of the payload. -/
def Carries (p : Packet) (x : Nat) : Prop := fragFirst p≤x ∧ x<fragFirst p+fragmentSize p

def Received (ps : List Packet) (x : Nat) : Prop := ∃ p∈ps, Carries p x

def Ended (ps : List Packet) : Prop := ∃ p∈ps, moreFragments p=false

def Missing (n : Nat) (ps : List Packet) (x : Nat) : Prop :=
  ¬Received ps x ∧ x ≤ infinity ∧ (Ended ps → x<n)

def Covered (n : Nat) (ps : List Packet) : Prop := Ended ps ∧ ∀ x<n, Received ps x

structure WellFormed (key : Packet) (n : Nat) (p : Packet) : Prop where
  src : srcAddr p=srcAddr key
  dst : dstAddr p=dstAddr key
  id : packetId p=packetId key
  protocol : protocol p=protocol key
  header : 20≤headerSize p
  payload : headerSize p<totalLength p
  total : n+headerSize p<65536
  more : moreFragments p → fragFirst p+fragmentSize p<n
  last : moreFragments p=false → fragFirst p+fragmentSize p=n

/-- A fragment that brings a new byte brings bytes of one gap only, and what is left of the gap on
either side is longer than the header and one byte, or reaches to the start. -/
def Clean (h n : Nat) (ps : List Packet) (p : Packet) : Prop :=
  (∃ x, Carries p x ∧ Missing n ps x) →
    (∀ x y z, Carries p x → Carries p y → Missing n ps x → Missing n ps y → x≤z → z≤y →
      Missing n ps z) ∧
    (moreFragments p → Missing n ps (fragFirst p+fragmentSize p) →
      ∀ i≤h+1, Missing n ps (fragFirst p+fragmentSize p+i)) ∧
    (∀ f, fragFirst p=f+1 → Missing n ps f → ∀ i≤h+1, i≤f → Missing n ps (f-i))

section Sets
variable {key p : Packet} {n x : Nat} {ps : List Packet}

section
variable (h : WellFormed key n p)
include h

theorem WellFormed.fragmentSize_eq : fragmentSize p=totalLength p-headerSize p := by
  have h1 := h.payload
  have h2 : totalLength p<65536 := by
    simp only [totalLength,networkShort]
    omega
  rw [fragmentSize,uint]
  omega

theorem WellFormed.fragmentSize_pos : 0<fragmentSize p := by
  have h1 := h.payload
  rw [h.fragmentSize_eq]
  omega

theorem WellFormed.end_le : fragFirst p+fragmentSize p≤n := by
  cases hmore : moreFragments p with
  | true => exact (h.more hmore).le
  | false => exact (h.last hmore).le

theorem WellFormed.fragLast_eq : fragLast p=fragFirst p+fragmentSize p+headerSize p := by
  have h1 := h.payload
  have h2 := h.fragmentSize_eq
  have h3 := h.end_le
  have h4 := h.total
  rw [fragLast]
  omega

end

theorem received_append : Received (ps++[p]) x ↔ Received ps x ∨ Carries p x := by
  simp only [Received,mem_append,mem_singleton]
  constructor
  · rintro ⟨q,hq | rfl,hc⟩
    · exact .inl ⟨q,hq,hc⟩
    · exact .inr hc
  · rintro (⟨q,hq,hc⟩ | hc)
    · exact ⟨q,.inl hq,hc⟩
    · exact ⟨p,.inr rfl,hc⟩

theorem ended_append : Ended (ps++[p]) ↔ Ended ps ∨ moreFragments p=false := by
  simp only [Ended,mem_append,mem_singleton]
  constructor
  · rintro ⟨q,hq | rfl,hm⟩
    · exact .inl ⟨q,hq,hm⟩
    · exact .inr hm
  · rintro (⟨q,hq,hm⟩ | hm)
    · exact ⟨q,.inl hq,hm⟩
    · exact ⟨p,.inr rfl,hm⟩

/-- Before the last fragment has come, no byte from `n - 1` on has. -/
theorem missing_of_not_ended (hps : ∀ p∈ps, WellFormed key n p) (hend : ¬Ended ps)
    (hx : n≤x+1) (hinf : x ≤ infinity) : Missing n ps x := by
  refine ⟨?_,hinf,fun h => absurd h hend⟩
  rintro ⟨p,hp,hc⟩
  have hmore : moreFragments p := by
    by_contra hm
    exact hend ⟨p,hp,by simpa using hm⟩
  have := (hps p hp).more hmore
  have := hc.2
  omega

/-- Nothing is missing exactly when the payload is covered. -/
theorem covered_iff (hps : ∀ p∈ps, WellFormed key n p) (hn : n < infinity) :
    Covered n ps ↔ ∀ x, ¬Missing n ps x := by
  constructor
  · rintro ⟨hend,hall⟩ x ⟨hno,-,hlt⟩
    exact hno (hall x (hlt hend))
  · intro hnone
    have hend : Ended ps := by
      by_contra hend
      exact hnone infinity (missing_of_not_ended hps hend (by omega) le_rfl)
    refine ⟨hend,fun x hx => ?_⟩
    by_contra hno
    exact hnone x ⟨hno,by omega,fun _ => hx⟩

end Sets

def Hole.Has (g : Hole) (x : Nat) : Prop := g.first≤x ∧ x≤g.last

def Hole.Apart (g g' : Hole) : Prop := g.last<g'.first ∨ g'.last<g.first

instance : Std.Symm Hole.Apart := ⟨fun _ _ => Or.symm⟩

structure Gaps (M : Nat → Prop) (gaps : List Hole) : Prop where
  mem : ∀ x, M x ↔ ∃ g∈gaps, g.Has x
  ordered : ∀ g∈gaps, g.first≤g.last
  before : ∀ g∈gaps, ∀ a, g.first=a+1 → ¬M a
  behind : ∀ g∈gaps, ¬M (g.last+1)
  disjoint : gaps.Pairwise Hole.Apart

section Gaps
variable {M M' : Nat → Prop} {gaps parts l₁ l₂ : List Hole} {g g' : Hole} {x y : Nat}

theorem Gaps.eq_of_has (h : Gaps M gaps) (hg : g∈gaps) (hg' : g'∈gaps) (hx : g.Has x)
    (hx' : g'.Has x) : g=g' := by
  by_contra hne
  have hapart : g.last<g'.first ∨ g'.last<g.first := h.disjoint.forall hg hg' hne
  obtain ⟨h1,h2⟩ := hx
  obtain ⟨h3,h4⟩ := hx'
  omega

/-- A run of bytes of the set stays in one interval. -/
theorem Gaps.le_last (h : Gaps M gaps) (hg : g∈gaps) (hx : g.Has x)
    (hrun : ∀ z, x≤z → z≤y → M z) : y≤g.last := by
  by_contra hlt
  have hx2 := hx.2
  exact h.behind g hg (hrun (g.last+1) (by omega) (by omega))

theorem Gaps.first_le (h : Gaps M gaps) (hg : g∈gaps) (hx : g.Has x)
    (hrun : ∀ z, y≤z → z≤x → M z) : g.first≤y := by
  by_contra hlt
  have hx1 := hx.1
  exact h.before g hg (g.first-1) (by omega) (hrun (g.first-1) (by omega) (by omega))

/-- An interval is replaced by parts of it. -/
theorem Gaps.replace (h : Gaps M (l₁++g::l₂))
    (hM : ∀ x, M' x ↔ M x ∧ (g.Has x → ∃ q∈parts, q.Has x))
    (hparts : ∀ q∈parts, g.first≤q.first ∧ q.first≤q.last ∧ q.last≤g.last)
    (hbefore : ∀ q∈parts, ∀ a, q.first=a+1 → ¬M' a)
    (hbehind : ∀ q∈parts, ¬M' (q.last+1)) (hdisjoint : parts.Pairwise Hole.Apart) :
    Gaps M' (l₁++l₂++parts) := by
  have hold : ∀ q∈l₁++l₂, q∈l₁++g::l₂ := by
    intro q hq
    simp only [mem_append,mem_cons] at hq ⊢
    tauto
  have hsub := h.disjoint.sublist
    ((List.Sublist.refl l₁).append (sublist_cons_self g l₂))
  -- the other intervals have no byte in common with the one that is replaced
  have hother : ∀ q∈l₁++l₂, q.last<g.first ∨ g.last<q.first := by
    intro q hq
    obtain ⟨-,h2,h12⟩ := pairwise_append.mp h.disjoint
    obtain hq | hq := mem_append.mp hq
    · exact h12 q hq g mem_cons_self
    · exact ((pairwise_cons.mp h2).1 q hq).symm
  have hgmem : g∈l₁++g::l₂ := by simp
  refine ⟨fun x => ?_,fun q hq => ?_,fun q hq a ha hMa => ?_,fun q hq hMb => ?_,?_⟩
  · rw [hM]
    constructor
    · rintro ⟨hx,hpart⟩
      obtain ⟨q,hq,hhas⟩ := (h.mem x).mp hx
      by_cases hqg : g.Has x
      · obtain ⟨q',hq',hhas'⟩ := hpart hqg
        exact ⟨q',mem_append_right _ hq',hhas'⟩
      · refine ⟨q,mem_append_left _ ?_,hhas⟩
        have hne : q≠g := fun hqg' => hqg (hqg' ▸ hhas)
        simp only [mem_append,mem_cons] at hq ⊢
        tauto
    · rintro ⟨q,hq,hhas⟩
      obtain ⟨h1,h2⟩ := hhas
      obtain hq | hq := mem_append.mp hq
      · refine ⟨(h.mem x).mpr ⟨q,hold q hq,h1,h2⟩,fun hg => ?_⟩
        obtain ⟨h3,h4⟩ := hg
        have := hother q hq
        omega
      · obtain ⟨h3,h4,h5⟩ := hparts q hq
        exact ⟨(h.mem x).mpr ⟨g,hgmem,by omega,by omega⟩,fun _ => ⟨q,hq,h1,h2⟩⟩
  · obtain hq | hq := mem_append.mp hq
    · exact h.ordered q (hold q hq)
    · exact (hparts q hq).2.1
  · obtain hq | hq := mem_append.mp hq
    · exact h.before q (hold q hq) a ha ((hM a).mp hMa).1
    · exact hbefore q hq a ha hMa
  · obtain hq | hq := mem_append.mp hq
    · exact h.behind q (hold q hq) ((hM _).mp hMb).1
    · exact hbehind q hq hMb
  · refine pairwise_append.mpr ⟨hsub,hdisjoint,fun q hq q' hq' => ?_⟩
    have h1 := hother q hq
    have h2 := hparts q' hq'
    rw [Hole.Apart]
    omega

end Gaps

def trackedHole (h : Nat) (g : Hole) : Hole := ⟨if g.first=0 then 0 else g.first+h+1,g.last⟩

def HolesTrack (h n : Nat) (ps : List Packet) (holes : List Hole) : Prop :=
  ∃ gaps, holes=gaps.map (trackedHole h) ∧ Gaps (Missing n ps) gaps ∧
    ∀ g∈gaps, g.first=0 ∨ g.first+h+1≤g.last

section Track
variable {key p : Packet} {h n : Nat} {ps : List Packet} {g : Hole} {holes : List Hole}

/-- A fragment meets the hole of a gap exactly if it carries a byte of the gap. -/
theorem overlaps_iff (hp : WellFormed key n p) (hh : headerSize p=h) (hg : g.first≤g.last) :
    (trackedHole h g).overlaps p ↔ ∃ x, Carries p x ∧ g.Has x := by
  have hpos := hp.fragmentSize_pos
  have hlast := hp.fragLast_eq
  have hmeet : (∃ x, Carries p x ∧ g.Has x) ↔
      fragFirst p≤g.last ∧ g.first<fragFirst p+fragmentSize p := by
    constructor
    · rintro ⟨x,⟨h1,h2⟩,h3,h4⟩
      omega
    · rintro ⟨h1,h2⟩
      refine ⟨max (fragFirst p) g.first,⟨?_,?_⟩,?_,?_⟩
      all_goals omega
  rw [hmeet]
  simp only [Hole.overlaps,trackedHole,not_or,decide_eq_true_eq,gt_iff_lt,not_lt]
  by_cases h0 : g.first=0
  · rw [if_pos h0]
    omega
  · rw [if_neg h0]
    omega

def gapParts (p : Packet) (g : Hole) : List Hole :=
  (if g.first<fragFirst p then [⟨g.first,fragFirst p-1⟩] else []) ++
    if moreFragments p ∧ fragFirst p+fragmentSize p≤g.last then
      [⟨fragFirst p+fragmentSize p,g.last⟩]
    else []

theorem missing_append_of_more (hm : moreFragments p) (x : Nat) :
    Missing n (ps++[p]) x ↔ Missing n ps x ∧ ¬Carries p x := by
  rw [Missing,Missing,received_append,ended_append]
  simp only [hm,Bool.true_eq_false,or_false]
  tauto

theorem missing_append_of_last (hp : WellFormed key n p) (hm : moreFragments p=false) (x : Nat) :
    Missing n (ps++[p]) x ↔ Missing n ps x ∧ x<fragFirst p := by
  have hend := hp.last hm
  rw [Missing,received_append,ended_append,Carries]
  simp only [hm,or_true,true_implies]
  constructor
  · rintro ⟨h1,h2,h3⟩
    refine ⟨⟨fun hr => h1 (.inl hr),h2,fun _ => h3⟩,?_⟩
    by_contra hx
    exact h1 (.inr ⟨by omega,by omega⟩)
  · rintro ⟨⟨h1,h2,h3⟩,hx⟩
    refine ⟨?_,h2,by omega⟩
    rintro (hr | hc)
    · exact h1 hr
    · omega

/-- A fragment that brings nothing new changes nothing; a last one is not the first such then. -/
theorem missing_append_of_carried (hps : ∀ p∈ps, WellFormed key n p) (hp : WellFormed key n p)
    (hnone : ∀ x, Carries p x → ¬Missing n ps x) (x : Nat) :
    Missing n (ps++[p]) x ↔ Missing n ps x := by
  cases hm : moreFragments p with
  | true =>
    rw [missing_append_of_more hm]
    exact ⟨fun hx => hx.1,fun hx => ⟨hx,fun hc => hnone x hc hx⟩⟩
  | false =>
    rw [missing_append_of_last hp hm]
    refine ⟨fun hx => hx.1,fun hx => ⟨hx,?_⟩⟩
    have hpos := hp.fragmentSize_pos
    have hend := hp.last hm
    have hinf := hx.2.1
    by_contra hge
    by_cases hxn : x<n
    · exact hnone x ⟨by omega,by omega⟩ hx
    · have hend' : ¬Ended ps := fun he => hxn (hx.2.2 he)
      exact hnone (n-1) ⟨by omega,by omega⟩
        (missing_of_not_ended hps hend' (by omega) (by omega))

/-- Bytes that the fragment carries and the gaps have lie in one gap. -/
theorem Clean.one_gap {gaps : List Hole} (hclean : Clean h n ps p)
    (hgaps : Gaps (Missing n ps) gaps)
    {x y : Nat} {g' : Hole} (hg : g∈gaps) (hg' : g'∈gaps) (hx : Carries p x) (hxg : g.Has x)
    (hy : Carries p y) (hyg : g'.Has y) : g=g' := by
  have hmx : Missing n ps x := (hgaps.mem x).mpr ⟨g,hg,hxg⟩
  have hmy : Missing n ps y := (hgaps.mem y).mpr ⟨g',hg',hyg⟩
  obtain ⟨hone,-,-⟩ := hclean ⟨x,hx,hmx⟩
  obtain hxy | hyx := Nat.le_total x y
  · have hle := hgaps.le_last hg hxg fun z h1 h2 => hone x y z hx hy hmx hmy h1 h2
    have hgy : g.Has y := ⟨hxg.1.trans hxy,hle⟩
    exact hgaps.eq_of_has hg hg' hgy hyg
  · have hle := hgaps.le_last hg' hyg fun z h1 h2 => hone y x z hy hx hmy hmx h1 h2
    have hgx : g'.Has x := ⟨hyg.1.trans hyx,hle⟩
    exact hgaps.eq_of_has hg hg' hxg hgx

theorem mem_gapParts {q : Hole} : q∈gapParts p g ↔
    (g.first<fragFirst p ∧ q=⟨g.first,fragFirst p-1⟩) ∨
      ((moreFragments p ∧ fragFirst p+fragmentSize p≤g.last) ∧
        q=⟨fragFirst p+fragmentSize p,g.last⟩) := by
  rw [gapParts,mem_append]
  refine or_congr ?_ ?_
  · split
    · simp_all
    · simp_all
  · split
    · simp_all
    · simp_all

section Touched
variable {gaps : List Hole} {x : Nat}

/-- What is left of a gap is long enough, so that the holes left stand for the parts left. -/
theorem Clean.leftOver_eq (hclean : Clean h n ps p) (hp : WellFormed key n p)
    (hh : headerSize p=h) (hgaps : Gaps (Missing n ps) gaps) (hg : g∈gaps) (hx : Carries p x)
    (hxg : g.Has x) :
    (trackedHole h g).leftOver p=(gapParts p g).map (trackedHole h) ∧
      ∀ q∈gapParts p g, q.first=0 ∨ q.first+h+1≤q.last := by
  have hlast := hp.fragLast_eq
  obtain ⟨hx1,hx2⟩ := hx
  obtain ⟨hg1,hg2⟩ := hxg
  obtain ⟨-,hright,hleft⟩ := hclean ⟨x,⟨hx1,hx2⟩,(hgaps.mem x).mpr ⟨g,hg,hg1,hg2⟩⟩
  have hfront : g.first<fragFirst p → g.first=0 ∨ g.first+h+1≤fragFirst p-1 := by
    intro hlt
    obtain ⟨f,hf⟩ : ∃ f, fragFirst p=f+1 := ⟨fragFirst p-1,by omega⟩
    have hhas : g.Has f := ⟨by omega,by omega⟩
    have hrun := hleft f hf ((hgaps.mem f).mpr ⟨g,hg,hhas⟩)
    have hfirst := hgaps.first_le hg hhas (y := f-(h+1)) fun z h1 h2 => by
      have hz := hrun (f-z) (by omega) (by omega)
      rwa [show f-(f-z)=z by omega] at hz
    omega
  have hback : moreFragments p → fragFirst p+fragmentSize p≤g.last →
      fragFirst p+fragmentSize p+h+1≤g.last := by
    intro hm hle
    have hhas : g.Has (fragFirst p+fragmentSize p) := ⟨by omega,hle⟩
    have hrun := hright hm ((hgaps.mem _).mpr ⟨g,hg,hhas⟩)
    refine hgaps.le_last hg hhas fun z h1 h2 => ?_
    have hz := hrun (z-(fragFirst p+fragmentSize p)) (by omega)
    rwa [show fragFirst p+fragmentSize p+(z-(fragFirst p+fragmentSize p))=z by omega] at hz
  constructor
  · rw [Hole.leftOver,gapParts,map_append]
    congr 1
    · by_cases hlt : g.first<fragFirst p
      · have hcode : fragFirst p > (trackedHole h g).first := by
          simp only [trackedHole]
          split
          · omega
          · have := (hfront hlt).resolve_left (by assumption)
            omega
        rw [if_pos hlt,if_pos hcode]
        rfl
      · have hcode : ¬fragFirst p > (trackedHole h g).first := by
          simp only [trackedHole]
          split
          · omega
          · omega
        rw [if_neg hlt,if_neg hcode]
        rfl
    · by_cases hback' : moreFragments p ∧ fragFirst p+fragmentSize p≤g.last
      · have hlong := hback hback'.1 hback'.2
        have hcode : fragLast p<(trackedHole h g).last ∧ moreFragments p :=
          ⟨by simp only [trackedHole]; omega,hback'.1⟩
        rw [if_pos hback',if_pos hcode,hlast,hh]
        simp only [map_cons,map_nil,trackedHole]
        rw [if_neg (by omega)]
      · have hcode : ¬(fragLast p<(trackedHole h g).last ∧ moreFragments p) := by
          rintro ⟨h1,h2⟩
          simp only [trackedHole] at h1
          exact hback' ⟨h2,by omega⟩
        rw [if_neg hback',if_neg hcode]
        rfl
  · intro q hq
    obtain ⟨hlt,rfl⟩ | ⟨⟨hm,hle⟩,rfl⟩ := mem_gapParts.mp hq
    · exact hfront hlt
    · exact .inr (hback hm hle)

/-- The gaps after a fragment that carries bytes of the gap `g`. -/
theorem Clean.gaps_replace {l₁ l₂ : List Hole} (hclean : Clean h n ps p)
    (hps : ∀ p∈ps, WellFormed key n p) (hp : WellFormed key n p)
    (hgaps : Gaps (Missing n ps) (l₁++g::l₂)) (hx : Carries p x) (hxg : g.Has x) :
    Gaps (Missing n (ps++[p])) (l₁++l₂++gapParts p g) := by
  have hpos := hp.fragmentSize_pos
  have hgmem : g∈l₁++g::l₂ := by simp
  have hcarried : ∀ y, Carries p y → Missing n ps y → g.Has y := by
    intro y hy hmy
    obtain ⟨g',hg',hyg⟩ := (hgaps.mem y).mp hmy
    exact (hclean.one_gap hgaps hgmem hg' hx hxg hy hyg) ▸ hyg
  have hnew : ∀ y, Missing n (ps++[p]) y → Missing n ps y ∧ ¬Carries p y := by
    intro y hy
    cases hm : moreFragments p with
    | true => exact (missing_append_of_more hm y).mp hy
    | false =>
      obtain ⟨h1,h2⟩ := (missing_append_of_last hp hm y).mp hy
      exact ⟨h1,fun hc => absurd hc.1 (by omega)⟩
  have hM : ∀ y, Missing n (ps++[p]) y ↔
      Missing n ps y ∧ (g.Has y → ∃ q∈gapParts p g, q.Has y) := by
    intro y
    cases hm : moreFragments p with
    | true =>
      rw [missing_append_of_more hm]
      refine and_congr_right fun hmy => ⟨fun hno hyg => ?_,fun hpart hc => ?_⟩
      · obtain ⟨h1,h2⟩ := hyg
        by_cases hlt : y<fragFirst p
        · exact ⟨_,mem_gapParts.mpr (.inl ⟨by omega,rfl⟩),h1,by change y≤fragFirst p-1; omega⟩
        · have hge : fragFirst p+fragmentSize p≤y := by
            by_contra hlt'
            exact hno ⟨by omega,by omega⟩
          exact ⟨_,mem_gapParts.mpr (.inr ⟨⟨hm,by omega⟩,rfl⟩),hge,h2⟩
      · obtain ⟨q,hq,h3,h4⟩ := hpart (hcarried y hc hmy)
        obtain ⟨h1,h2⟩ := hc
        obtain ⟨hlt,rfl⟩ | ⟨-,rfl⟩ := mem_gapParts.mp hq
        · change y≤fragFirst p-1 at h4
          omega
        · change fragFirst p+fragmentSize p≤y at h3
          omega
    | false =>
      have hend := hp.last hm
      rw [missing_append_of_last hp hm]
      refine and_congr_right fun hmy => ⟨fun hlt hyg => ?_,fun hpart => ?_⟩
      · exact ⟨_,mem_gapParts.mpr (.inl ⟨by have := hyg.1; omega,rfl⟩),hyg.1,
          by change y≤fragFirst p-1; omega⟩
      · by_contra hge
        -- the byte is in the gap, since a byte behind the end is only missing before it is known
        have hyg : g.Has y := by
          by_cases hyn : y<n
          · exact hcarried y ⟨by omega,by omega⟩ hmy
          · have hend' : ¬Ended ps := fun he => hyn (hmy.2.2 he)
            have hprev := missing_of_not_ended hps hend' (x := n-1) (by omega) (by
              have := hmy.2.1
              omega)
            have hprevg := hcarried (n-1) ⟨by omega,by omega⟩ hprev
            have hle := hgaps.le_last hgmem hprevg (y := y) fun z h1 h2 =>
              missing_of_not_ended hps hend' (by omega) (by
                have := hmy.2.1
                omega)
            exact ⟨by have := hprevg.1; omega,hle⟩
        obtain ⟨q,hq,h3,h4⟩ := hpart hyg
        obtain ⟨hlt,rfl⟩ | ⟨⟨hm',-⟩,-⟩ := mem_gapParts.mp hq
        · change y≤fragFirst p-1 at h4
          omega
        · rw [hm] at hm'
          exact Bool.noConfusion hm'
  obtain ⟨hx1,hx2⟩ := hx
  obtain ⟨hg1,hg2⟩ := hxg
  refine hgaps.replace hM (fun q hq => ?_) (fun q hq a ha => ?_) (fun q hq => ?_) ?_
  · obtain ⟨hlt,rfl⟩ | ⟨⟨-,hle⟩,rfl⟩ := mem_gapParts.mp hq
    · exact ⟨le_rfl,by change g.first≤fragFirst p-1; omega,
        by change fragFirst p-1≤g.last; omega⟩
    · exact ⟨by change g.first≤fragFirst p+fragmentSize p; omega,hle,le_rfl⟩
  · obtain ⟨-,rfl⟩ | ⟨-,rfl⟩ := mem_gapParts.mp hq
    · exact fun hMa => hgaps.before g hgmem a ha (hnew a hMa).1
    · change fragFirst p+fragmentSize p=a+1 at ha
      exact fun hMa => (hnew a hMa).2 ⟨by omega,by omega⟩
  · obtain ⟨hlt,rfl⟩ | ⟨-,rfl⟩ := mem_gapParts.mp hq
    · have heq : fragFirst p-1+1=fragFirst p := by omega
      rw [heq]
      exact fun hMb => (hnew _ hMb).2 ⟨le_rfl,by omega⟩
    · exact fun hMb => hgaps.behind g hgmem (hnew _ hMb).1
  · rw [gapParts]
    split
    · split
      · refine pairwise_pair.mpr (.inl ?_)
        change fragFirst p-1<fragFirst p+fragmentSize p
        omega
      · exact pairwise_singleton _ _
    · split
      · exact pairwise_singleton _ _
      · exact .nil

end Touched

/-- The holes stand for the gaps also after a clean fragment. -/
theorem HolesTrack.step (ht : HolesTrack h n ps holes) (hps : ∀ p∈ps, WellFormed key n p)
    (hp : WellFormed key n p) (hh : headerSize p=h) (hclean : Clean h n ps p) :
    (holes.find? (Hole.overlaps p)=none ∧ (∀ x, Carries p x → ¬Missing n ps x) ∧
        HolesTrack h n (ps++[p]) holes) ∨
      ∃ hole, holes.find? (Hole.overlaps p)=some hole ∧
        HolesTrack h n (ps++[p]) (holes.eraseP (Hole.overlaps p)++hole.leftOver p) := by
  obtain ⟨gaps,rfl,hgaps,hlong⟩ := ht
  have hfind : (gaps.map (trackedHole h)).find? (Hole.overlaps p) =
      (gaps.find? (Hole.overlaps p ∘ trackedHole h)).map (trackedHole h) := find?_map
  rw [hfind]
  cases hgfind : gaps.find? (Hole.overlaps p ∘ trackedHole h) with
  | none =>
    have hnone : ∀ x, Carries p x → ¬Missing n ps x := by
      intro x hx hm
      obtain ⟨g,hg,hxg⟩ := (hgaps.mem x).mp hm
      have hno := find?_eq_none.mp hgfind g hg
      exact hno ((overlaps_iff hp hh (hgaps.ordered g hg)).mpr ⟨x,hx,hxg⟩)
    refine .inl ⟨rfl,hnone,gaps,rfl,?_,hlong⟩
    have hsame : Missing n (ps++[p])=Missing n ps := by
      funext x
      exact propext (missing_append_of_carried hps hp hnone x)
    rw [hsame]
    exact hgaps
  | some g =>
    obtain ⟨l₁,l₂,hl,herase,-,hover⟩ := find?_eraseP hgfind
    have hg : g∈gaps := mem_of_find?_eq_some hgfind
    obtain ⟨x,hx,hxg⟩ := (overlaps_iff hp hh (hgaps.ordered g hg)).mp hover
    obtain ⟨hleft,hparts⟩ := hclean.leftOver_eq hp hh hgaps hg hx hxg
    refine .inr ⟨trackedHole h g,rfl,l₁++l₂++gapParts p g,?_,?_,fun q hq => ?_⟩
    · rw [eraseP_map,herase,hleft]
      simp
    · rw [hl] at hgaps
      exact hclean.gaps_replace hps hp hgaps hx hxg
    · obtain hq | hq := mem_append.mp hq
      · refine hlong q ?_
        rw [hl]
        simp only [mem_append,mem_cons] at hq ⊢
        tauto
      · exact hparts q hq

end Track

end Odyssey.Ip
