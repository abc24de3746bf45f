import Odyssey.Mm.NonPagedPool

/-! The pages of the initial nonpaged pool: free runs and allocations. -/
namespace Odyssey.Mm
open ListEntry Extent Function

/-- The pages from `lo` to `hi` are divided into the free runs `F` and the allocations `L`. -/
structure Layout (s : NonPagedPool) (lo hi : Nat) (L F : Extent → Prop) : Prop where
  within : ∀ r, F r → r.Within lo hi
  apart : ∀ r x, F r → F x → r≠x → r.Apart x
  size : ∀ r, F r → s.size r.first=r.size
  owner : ∀ r, F r → ∀ p, r.Contains p → s.owner p=r.first
  signature : ∀ r, F r → ∀ p, r.Contains p → s.signature p=mmFreePoolSignature
  live_within : ∀ a, L a → a.Within lo hi
  live_disjoint : ∀ a b, L a → L b → a≠b → a.Disjoint b
  disjoint : ∀ r, F r → ∀ a, L a → r.Disjoint a
  cover : ∀ p, lo≤p → p<hi → ∃ x, (F x ∨ L x) ∧ x.Contains p
  starts : ∀ p, lo≤p → p<hi → (s.startOfAllocation p ↔ ∃ a, L a ∧ a.first=p)
  ends : ∀ p, lo≤p → p<hi → (s.endOfAllocation p ↔ ∃ a, L a ∧ a.first+a.size=p+1)

structure SamePage (s s' : NonPagedPool) (p : Nat) : Prop where
  size : s'.size p=s.size p
  owner : s'.owner p=s.owner p
  signature : s'.signature p=s.signature p
  start : s'.startOfAllocation p=s.startOfAllocation p
  last : s'.endOfAllocation p=s.endOfAllocation p

section Layout
variable {s s' : NonPagedPool} {L F K G : Extent → Prop} {r a w : Extent} {lo hi : Nat}

theorem Layout.congr (h : Layout s lo hi L F) {L' F' : Extent → Prop} (hL : ∀ x, L' x ↔ L x)
    (hF : ∀ x, F' x ↔ F x) : Layout s lo hi L' F' := by
  obtain rfl : L'=L := funext fun x => propext (hL x)
  obtain rfl : F'=F := funext fun x => propext (hF x)
  exact h

/-- The pages of `w` are divided anew and the others are kept. -/
theorem Layout.replace (h : Layout s lo hi L F) (hw : w.Within lo hi)
    (hsep : ∀ x, F x ∨ L x → x.Disjoint w ∨ x.Within w.first (w.first+w.size))
    (hin : Layout s' w.first (w.first+w.size) K G) (hout : ∀ p, ¬w.Contains p → SamePage s s' p)
    (hbound : ∀ x y, F x → x.Disjoint w → G y → x.Apart y) :
    Layout s' lo hi (fun x => (L x ∧ x.Disjoint w) ∨ K x)
      fun x => (F x ∧ x.Disjoint w) ∨ G x := by
  obtain ⟨hw1,hw2,hw3⟩ := hw
  have hwithin : ∀ x : Extent, x.Within w.first (w.first+w.size) → x.Within lo hi :=
    fun x hx => ⟨hw1.trans hx.1,hx.2.1,hx.2.2.trans hw3⟩
  have hpart : ∀ x y : Extent, x.Disjoint w → y.Within w.first (w.first+w.size) →
      x.Disjoint y := fun x y hx hy => (hx.symm.part hy.1 hy.2.2).symm
  have hpage : ∀ (x : Extent) p, x.Disjoint w → x.Contains p → SamePage s s' p :=
    fun x p hx hp => hout p (hx.not_contains hp)
  constructor
  case within =>
    rintro x (⟨hx,-⟩ | hx)
    · exact h.within x hx
    · exact hwithin x (hin.within x hx)
  case apart =>
    rintro x y (⟨hx,hxw⟩ | hx) (⟨hy,hyw⟩ | hy) hxy
    · exact h.apart x y hx hy hxy
    · exact hbound x y hx hxw hy
    · exact (hbound y x hy hyw hx).symm
    · exact hin.apart x y hx hy hxy
  case size =>
    rintro x (⟨hx,hxw⟩ | hx)
    · rw [(hpage x x.first hxw (contains_first (h.within x hx).2.1)).size,h.size x hx]
    · exact hin.size x hx
  case owner =>
    rintro x (⟨hx,hxw⟩ | hx) p hp
    · rw [(hpage x p hxw hp).owner,h.owner x hx p hp]
    · exact hin.owner x hx p hp
  case signature =>
    rintro x (⟨hx,hxw⟩ | hx) p hp
    · rw [(hpage x p hxw hp).signature,h.signature x hx p hp]
    · exact hin.signature x hx p hp
  case live_within =>
    rintro x (⟨hx,-⟩ | hx)
    · exact h.live_within x hx
    · exact hwithin x (hin.live_within x hx)
  case live_disjoint =>
    rintro x y (⟨hx,hxw⟩ | hx) (⟨hy,hyw⟩ | hy) hxy
    · exact h.live_disjoint x y hx hy hxy
    · exact hpart x y hxw (hin.live_within y hy)
    · exact (hpart y x hyw (hin.live_within x hx)).symm
    · exact hin.live_disjoint x y hx hy hxy
  case disjoint =>
    rintro x (⟨hx,hxw⟩ | hx) y (⟨hy,hyw⟩ | hy)
    · exact h.disjoint x hx y hy
    · exact hpart x y hxw (hin.live_within y hy)
    · exact (hpart y x hyw (hin.within x hx)).symm
    · exact hin.disjoint x hx y hy
  case cover =>
    intro p hlo hhi
    by_cases hwp : w.Contains p
    · obtain ⟨x,hx,hxp⟩ := hin.cover p hwp.1 hwp.2
      exact ⟨x,hx.imp .inr .inr,hxp⟩
    · obtain ⟨x,hx,hxp⟩ := h.cover p hlo hhi
      have hxw : x.Disjoint w := by
        refine (hsep x hx).resolve_right fun hxw => hwp ?_
        exact hxw.contains hxp
      exact ⟨x,hx.imp (fun hx => .inl ⟨hx,hxw⟩) fun hx => .inl ⟨hx,hxw⟩,hxp⟩
  case starts =>
    intro p hlo hhi
    by_cases hwp : w.Contains p
    · rw [hin.starts p hwp.1 hwp.2]
      constructor
      · rintro ⟨x,hx,rfl⟩
        exact ⟨x,.inr hx,rfl⟩
      · rintro ⟨x,⟨hx,hxw⟩ | hx,rfl⟩
        · exact absurd hwp (hxw.not_contains (contains_first (h.live_within x hx).2.1))
        · exact ⟨x,hx,rfl⟩
    · rw [(hout p hwp).start,h.starts p hlo hhi]
      constructor
      · rintro ⟨x,hx,rfl⟩
        refine ⟨x,.inl ⟨hx,(hsep x (.inr hx)).resolve_right fun hxw => hwp ?_⟩,rfl⟩
        exact hxw.contains (contains_first hxw.2.1)
      · rintro ⟨x,⟨hx,-⟩ | hx,rfl⟩
        · exact ⟨x,hx,rfl⟩
        · have hxw := hin.live_within x hx
          exact absurd (hxw.contains (contains_first hxw.2.1)) hwp
  case ends =>
    intro p hlo hhi
    by_cases hwp : w.Contains p
    · rw [hin.ends p hwp.1 hwp.2]
      constructor
      · rintro ⟨x,hx,hxp⟩
        exact ⟨x,.inr hx,hxp⟩
      · rintro ⟨x,⟨hx,hxw⟩ | hx,hxp⟩
        · exact absurd hwp (hxw.not_contains (contains_last (h.live_within x hx).2.1 hxp))
        · exact ⟨x,hx,hxp⟩
    · rw [(hout p hwp).last,h.ends p hlo hhi]
      constructor
      · rintro ⟨x,hx,hxp⟩
        refine ⟨x,.inl ⟨hx,(hsep x (.inr hx)).resolve_right fun hxw => hwp ?_⟩,hxp⟩
        exact hxw.contains (contains_last hxw.2.1 hxp)
      · rintro ⟨x,⟨hx,-⟩ | hx,hxp⟩
        · exact ⟨x,hx,hxp⟩
        · have hxw := hin.live_within x hx
          exact absurd (hxw.contains (contains_last hxw.2.1 hxp)) hwp

/-- One free run. -/
theorem layout_run (hr : 1≤r.size) (hsize : s.size r.first=r.size)
    (howner : ∀ p, r.Contains p → s.owner p=r.first ∧ s.signature p=mmFreePoolSignature)
    (hbits : ∀ p, r.Contains p → s.startOfAllocation p=false ∧ s.endOfAllocation p=false) :
    Layout s r.first (r.first+r.size) (fun _ => False) (· = r) := by
  constructor
  case within =>
    rintro x rfl
    exact ⟨le_rfl,hr,le_rfl⟩
  case apart =>
    rintro x y rfl rfl hxy
    exact absurd rfl hxy
  case size =>
    rintro x rfl
    exact hsize
  case owner =>
    rintro x rfl p hp
    exact (howner p hp).1
  case signature =>
    rintro x rfl p hp
    exact (howner p hp).2
  case cover => exact fun p h1 h2 => ⟨r,.inl rfl,h1,h2⟩
  case starts =>
    intro p h1 h2
    simp [(hbits p ⟨h1,h2⟩).1]
  case ends =>
    intro p h1 h2
    simp [(hbits p ⟨h1,h2⟩).2]
  all_goals simp

/-- The last pages of a free run become an allocation. -/
theorem Layout.carve (h : Layout s lo hi L F) (hr : F r) (ha : 1≤a.size) (hra : r.first≤a.first)
    (hlast : a.first+a.size=r.first+r.size)
    (hsize : s'.size=update s.size r.first (a.first-r.first))
    (howner : s'.owner=s.owner) (hsig : s'.signature=s.signature)
    (hstart : s'.startOfAllocation=update s.startOfAllocation a.first true)
    (hend : s'.endOfAllocation=update s.endOfAllocation (a.first+a.size-1) true) :
    Layout s' lo hi (fun x => L x ∨ x=a) fun x =>
      (F x ∧ x≠r) ∨ (r.first<a.first ∧ x=⟨r.first,a.first-r.first⟩) := by
  obtain ⟨hr1,hr2,hr3⟩ := h.within r hr
  have hFr : ∀ x, F x → (x.Disjoint r ↔ x≠r) := by
    intro x hx
    constructor
    · rintro hxr rfl
      exact hxr.not_contains (contains_first hr2) (contains_first hr2)
    · exact fun hxr => (h.apart x r hx hr hxr).disjoint
  have hbits : ∀ p, r.Contains p → s.startOfAllocation p=false ∧ s.endOfAllocation p=false := by
    intro p hp
    have hlo : lo≤p := hr1.trans hp.1
    have hhi : p<hi := hp.2.trans_le hr3
    constructor
    · rw [Bool.eq_false_iff]
      intro hb
      obtain ⟨x,hx,rfl⟩ := (h.starts p hlo hhi).mp hb
      exact (h.disjoint r hr x hx).not_contains hp (contains_first (h.live_within x hx).2.1)
    · rw [Bool.eq_false_iff]
      intro hb
      obtain ⟨x,hx,hxp⟩ := (h.ends p hlo hhi).mp hb
      exact (h.disjoint r hr x hx).not_contains hp (contains_last (h.live_within x hx).2.1 hxp)
  have hin : Layout s' r.first (r.first+r.size) (· = a)
      fun x => r.first<a.first ∧ x=⟨r.first,a.first-r.first⟩ := by
    constructor
    case within =>
      rintro x ⟨hlt,rfl⟩
      exact ⟨le_rfl,by simp only; omega,by simp only; omega⟩
    case apart =>
      rintro x y ⟨-,rfl⟩ ⟨-,rfl⟩ hxy
      exact absurd rfl hxy
    case size =>
      rintro x ⟨-,rfl⟩
      simp [hsize]
    case owner =>
      rintro x ⟨-,rfl⟩ p hp
      rw [howner]
      exact h.owner r hr p ⟨hp.1,by have := hp.2; simp only at this; omega⟩
    case signature =>
      rintro x ⟨-,rfl⟩ p hp
      rw [hsig]
      exact h.signature r hr p ⟨hp.1,by have := hp.2; simp only at this; omega⟩
    case live_within =>
      rintro x rfl
      exact ⟨hra,ha,hlast.le⟩
    case live_disjoint =>
      rintro x y rfl rfl hxy
      exact absurd rfl hxy
    case disjoint =>
      rintro x ⟨hlt,rfl⟩ y rfl
      exact .inl (by simp only; omega)
    case cover =>
      intro p h1 h2
      by_cases hp : p<a.first
      · exact ⟨⟨r.first,a.first-r.first⟩,.inl ⟨by omega,rfl⟩,h1,by simp only; omega⟩
      · exact ⟨a,.inr rfl,by omega,by omega⟩
    case starts =>
      intro p h1 h2
      rw [hstart]
      by_cases hp : p=a.first
      · simp [hp]
      · simp [update_of_ne hp,(hbits p ⟨h1,h2⟩).1,Ne.symm hp]
    case ends =>
      intro p h1 h2
      rw [hend]
      by_cases hp : p=a.first+a.size-1
      · subst hp
        simp
        omega
      · simp [update_of_ne hp,(hbits p ⟨h1,h2⟩).2]
        omega
  have hout : ∀ p, ¬r.Contains p → SamePage s s' p := by
    intro p hp
    have h1 : p≠r.first := fun hpr => hp ⟨by omega,by omega⟩
    have h2 : p≠a.first := fun hpa => hp ⟨by omega,by omega⟩
    have h3 : p≠a.first+a.size-1 := fun hpa => hp ⟨by omega,by omega⟩
    exact ⟨by simp [hsize,h1],by rw [howner],by rw [hsig],by simp [hstart,h2],
      by simp [hend,h3]⟩
  have hnew := h.replace ⟨hr1,hr2,hr3⟩ (fun x hx => ?_) hin hout fun x y hx hxr hy => ?_
  · refine hnew.congr (fun x => or_congr_left ?_) fun x => or_congr_left ?_
    · exact ⟨fun hx => ⟨hx,(h.disjoint r hr x hx).symm⟩,And.left⟩
    · exact and_congr_right fun hx => (hFr x hx).symm
  · obtain hx | hx := hx
    · by_cases hxr : x=r
      · subst hxr
        exact .inr ⟨le_rfl,hr2,le_rfl⟩
      · exact .inl ((hFr x hx).mpr hxr)
    · exact .inl (h.disjoint r hr x hx).symm
  · obtain ⟨hlt,rfl⟩ := hy
    have hxr' := h.apart x r hx hr ((hFr x hx).mp hxr)
    have hle : r.first+(a.first-r.first)≤r.first+r.size := by omega
    exact Apart.symm (Apart.part hxr'.symm le_rfl hle)

def Left (F : Extent → Prop) (a : Extent) (first : Nat) : Prop :=
  (first=a.first ∧ ∀ x, F x → x.first+x.size≠a.first) ∨
    ∃ x, F x ∧ x.first=first ∧ x.first+x.size=a.first

def Right (F : Extent → Prop) (a : Extent) (last : Nat) : Prop :=
  (last=a.first+a.size ∧ ∀ x, F x → x.first≠a.first+a.size) ∨
    ∃ x, F x ∧ x.first=a.first+a.size ∧ x.first+x.size=last

section

variable (h : Layout s lo hi L F)
include h

theorem Layout.left (ha : L a) {first : Nat} (hl : Left F a first) :
    lo≤first ∧ first≤a.first ∧
      (∀ x, F x → x.first+x.size≤a.first → x.first+x.size<first ∨ first≤x.first) ∧
      ∀ x, L x → x.first+x.size≤a.first → x.first+x.size≤first := by
  obtain ⟨rfl,hno⟩ | ⟨y,hy,rfl,hya⟩ := hl
  · refine ⟨(h.live_within a ha).1,le_rfl,fun x hx hxa => ?_,fun x hx hxa => hxa⟩
    have := hno x hx
    omega
  · obtain ⟨h1,h2,h3⟩ := h.within y hy
    refine ⟨h1,by omega,fun x hx hxa => ?_,fun x hx hxa => ?_⟩
    · by_cases hxy : x=y
      · subst hxy
        exact .inr le_rfl
      · obtain hap | hap := h.apart x y hx hy hxy
        · exact .inl hap
        · have := (h.within x hx).2.1
          omega
    · obtain hd | hd := h.disjoint y hy x hx
      · have := (h.live_within x hx).2.1
        omega
      · exact hd

theorem Layout.right (ha : L a) {last : Nat} (hr : Right F a last) :
    last≤hi ∧ a.first+a.size≤last ∧
      (∀ x, F x → a.first+a.size≤x.first → last<x.first ∨ x.first+x.size≤last) ∧
      ∀ x, L x → a.first+a.size≤x.first → last≤x.first := by
  obtain ⟨rfl,hno⟩ | ⟨y,hy,hya,rfl⟩ := hr
  · refine ⟨(h.live_within a ha).2.2,le_rfl,fun x hx hxa => ?_,fun x hx hxa => hxa⟩
    have := hno x hx
    omega
  · obtain ⟨h1,h2,h3⟩ := h.within y hy
    refine ⟨h3,by omega,fun x hx hxa => ?_,fun x hx hxa => ?_⟩
    · by_cases hxy : x=y
      · subst hxy
        exact .inr le_rfl
      · obtain hap | hap := h.apart x y hx hy hxy
        · omega
        · exact .inl hap
    · obtain hd | hd := h.disjoint y hy x hx
      · exact hd
      · have := (h.live_within x hx).2.1
        omega

/-- An allocation becomes free, with the free runs next to it. -/
theorem Layout.merge (ha : L a) (hl : Left F a w.first)
    (hr : Right F a (w.first+w.size)) (hsize : s'.size=update s.size w.first w.size)
    (howner : ∀ p, s'.owner p =
      if a.first≤p ∧ p<w.first+w.size then w.first else s.owner p)
    (hsig : ∀ p, s'.signature p =
      if a.first≤p ∧ p<w.first+w.size then mmFreePoolSignature else s.signature p)
    (hstart : s'.startOfAllocation=update s.startOfAllocation a.first false)
    (hend : s'.endOfAllocation=update s.endOfAllocation (a.first+a.size-1) false) :
    Layout s' lo hi (fun x => L x ∧ x≠a) fun x => (F x ∧ x.Disjoint w) ∨ x=w := by
  obtain ⟨ha1,ha2,ha3⟩ := h.live_within a ha
  obtain ⟨hl1,hl2,hl3,hl4⟩ := h.left ha hl
  obtain ⟨hr1,hr2,hr3,hr4⟩ := h.right ha hr
  have haw : a.Within w.first (w.first+w.size) := ⟨hl2,ha2,hr2⟩
  have hw2 : 1≤w.size := by omega
  have hLw : ∀ x, L x → x≠a → x.Disjoint w := by
    intro x hx hxa
    obtain hd | hd := h.live_disjoint x a hx ha hxa
    · exact .inl (hl4 x hx hd)
    · exact .inr (hr4 x hx hd)
  have hFw : ∀ x, F x → x.Apart w ∨ x.Within w.first (w.first+w.size) := by
    intro x hx
    have hx2 := (h.within x hx).2.1
    obtain hd | hd := h.disjoint x hx a ha
    · obtain hx3 | hx3 := hl3 x hx hd
      · exact .inl (.inl hx3)
      · exact .inr ⟨hx3,hx2,by omega⟩
    · obtain hx3 | hx3 := hr3 x hx hd
      · exact .inl (.inr hx3)
      · exact .inr ⟨by omega,hx2,hx3⟩
  have howned : ∀ p, w.Contains p →
      s'.owner p=w.first ∧ s'.signature p=mmFreePoolSignature := by
    intro p hp
    by_cases hpa : a.first≤p
    · simp [howner,hsig,hpa,hp.2]
    · -- a page before the allocation is in the free run before it
      have hno : ¬(a.first≤p ∧ p<w.first+w.size) := fun h => hpa h.1
      rw [howner,hsig,if_neg hno,if_neg hno]
      obtain ⟨hw,-⟩ | ⟨x,hx,hxw,hxa⟩ := hl
      · exact absurd (hw ▸ hp.1) hpa
      · have hxp : x.Contains p := ⟨hxw.trans_le hp.1,by omega⟩
        exact ⟨(h.owner x hx p hxp).trans hxw,h.signature x hx p hxp⟩
  have hbits : ∀ p, w.Contains p →
      s'.startOfAllocation p=false ∧ s'.endOfAllocation p=false := by
    intro p hp
    have hlo : lo≤p := hl1.trans hp.1
    have hhi : p<hi := hp.2.trans_le hr1
    constructor
    · rw [hstart]
      by_cases hpa : p=a.first
      · rw [hpa,update_self]
      · rw [update_of_ne hpa,Bool.eq_false_iff]
        intro hb
        obtain ⟨x,hx,rfl⟩ := (h.starts p hlo hhi).mp hb
        have hxa : x≠a := fun hxa => hpa (by rw [hxa])
        exact (hLw x hx hxa).not_contains (contains_first (h.live_within x hx).2.1) hp
    · rw [hend]
      by_cases hpa : p=a.first+a.size-1
      · rw [hpa,update_self]
      · rw [update_of_ne hpa,Bool.eq_false_iff]
        intro hb
        obtain ⟨x,hx,hxp⟩ := (h.ends p hlo hhi).mp hb
        have hxa : x≠a := by
          rintro rfl
          omega
        exact (hLw x hx hxa).not_contains (contains_last (h.live_within x hx).2.1 hxp) hp
  have hout : ∀ p, ¬w.Contains p → SamePage s s' p := by
    intro p hp
    have h1 : p≠w.first := fun hpw => hp (hpw ▸ contains_first hw2)
    have h2 : p≠a.first := fun hpa => hp (hpa ▸ haw.contains (contains_first ha2))
    have h3 : p≠a.first+a.size-1 := fun hpa =>
      hp (haw.contains (contains_last ha2 (by omega)))
    have h4 : ¬(a.first≤p ∧ p<w.first+w.size) := fun hpa => hp ⟨hl2.trans hpa.1,hpa.2⟩
    exact ⟨by rw [hsize,update_of_ne h1],by rw [howner,if_neg h4],
      by rw [hsig,if_neg h4],by rw [hstart,update_of_ne h2],
      by rw [hend,update_of_ne h3]⟩
  have hin := layout_run hw2 (by rw [hsize,update_self]) howned hbits
  have hnew := h.replace ⟨hl1,hw2,hr1⟩ (fun x hx => ?_) hin hout fun x y hx hxw hy => ?_
  · refine hnew.congr (fun x => ?_) fun x => Iff.rfl
    constructor
    · rintro ⟨hx,hxa⟩
      exact .inl ⟨hx,hLw x hx hxa⟩
    · rintro (⟨hx,hxw⟩ | hx)
      · refine ⟨hx,?_⟩
        rintro rfl
        exact hxw.not_contains (contains_first ha2) (haw.contains (contains_first ha2))
      · exact hx.elim
  · obtain hx | hx := hx
    · exact (hFw x hx).imp_left Apart.disjoint
    · by_cases hxa : x=a
      · exact .inr (hxa ▸ haw)
      · exact .inl (hLw x hx hxa)
  · subst hy
    refine (hFw x hx).resolve_right fun hxw' => ?_
    have hx2 := (h.within x hx).2.1
    exact hxw.not_contains (contains_first hx2) (hxw'.contains (contains_first hx2))

/-- The free runs that are not next to the allocation are those disjoint from the joined run. -/
theorem Layout.disjoint_iff (ha : L a) (hl : Left F a w.first)
    (hr : Right F a (w.first+w.size)) {x : Extent} (hx : F x) :
    x.Disjoint w ↔ x.first≠a.first+a.size ∧ x.first+x.size≠a.first := by
  obtain ⟨-,ha2,-⟩ := h.live_within a ha
  obtain ⟨-,hl2,-,-⟩ := h.left ha hl
  obtain ⟨-,hr2,-,-⟩ := h.right ha hr
  constructor
  · intro hd
    constructor
    · intro hxa
      obtain ⟨-,hno⟩ | ⟨y,hy,hya,hyw⟩ := hr
      · exact hno x hx hxa
      · have hy2 := (h.within y hy).2.1
        obtain hd | hd := hd
        · omega
        · omega
    · intro hxa
      obtain ⟨-,hno⟩ | ⟨y,hy,hyw,hya⟩ := hl
      · exact hno x hx hxa
      · have hy2 := (h.within y hy).2.1
        obtain hd | hd := hd
        · omega
        · omega
  · rintro ⟨hxa,hxb⟩
    obtain hd | hd := h.disjoint x hx a ha
    · obtain ⟨hw,-⟩ | ⟨y,hy,hyw,hya⟩ := hl
      · exact .inl (by omega)
      · have hxy : x≠y := fun hxy => hxb (hxy ▸ hya)
        obtain hap | hap := h.apart x y hx hy hxy
        · exact .inl (by omega)
        · omega
    · obtain ⟨hw,-⟩ | ⟨y,hy,hya,hyw⟩ := hr
      · exact .inr (by omega)
      · have hxy : x≠y := fun hxy => hxa (hxy ▸ hya)
        obtain hap | hap := h.apart x y hx hy hxy
        · omega
        · exact .inr (by omega)

theorem Layout.eq_of_last {x y : Extent} (hx : F x) (hy : F y)
    (hxy : x.first+x.size=y.first+y.size) : x=y := by
  by_contra hne
  obtain hd | hd := h.apart x y hx hy hne
  · omega
  · omega

/-- The page before an allocation ends another one, or a free run. -/
theorem Layout.previous (ha : L a) (hlo : lo<a.first) :
    (s.endOfAllocation (a.first-1)=true ∧ ∀ x, F x → x.first+x.size≠a.first) ∨
      (s.endOfAllocation (a.first-1)=false ∧ ∃ x, F x ∧ x.first+x.size=a.first ∧
        s.owner (a.first-1)=x.first) := by
  obtain ⟨ha1,ha2,ha3⟩ := h.live_within a ha
  have hbit := h.ends (a.first-1) (by omega) (by omega)
  by_cases hb : s.endOfAllocation (a.first-1)=true
  · refine .inl ⟨hb,fun x hx hxa => ?_⟩
    obtain ⟨y,hy,hya⟩ := hbit.mp hb
    have hlast : x.first+x.size=a.first-1+1 := by omega
    exact (h.disjoint x hx y hy).not_contains (contains_last (h.within x hx).2.1 hlast)
      (contains_last (h.live_within y hy).2.1 hya)
  · refine .inr ⟨Bool.eq_false_iff.mpr hb,?_⟩
    obtain ⟨x,hx | hx,hxp⟩ := h.cover (a.first-1) (by omega) (by omega)
    · refine ⟨x,hx,?_,h.owner x hx _ hxp⟩
      obtain ⟨h1,h2⟩ := hxp
      obtain hd | hd := h.disjoint x hx a ha
      · omega
      · omega
    · refine absurd (hbit.mpr ⟨x,hx,?_⟩) hb
      obtain ⟨h1,h2⟩ := hxp
      have hxa : x≠a := by
        rintro rfl
        omega
      obtain hd | hd := h.live_disjoint x a hx ha hxa
      · omega
      · omega

/-- The page behind an allocation begins another one, or a free run. -/
theorem Layout.next (ha : L a) (hhi : a.first+a.size<hi) :
    (s.startOfAllocation (a.first+a.size)=true ∧ ∀ x, F x → x.first≠a.first+a.size) ∨
      (s.startOfAllocation (a.first+a.size)=false ∧
        ∃ x, F x ∧ x.first=a.first+a.size) := by
  obtain ⟨ha1,ha2,ha3⟩ := h.live_within a ha
  have hbit := h.starts (a.first+a.size) (by omega) hhi
  by_cases hb : s.startOfAllocation (a.first+a.size)=true
  · refine .inl ⟨hb,fun x hx hxa => ?_⟩
    obtain ⟨y,hy,hya⟩ := hbit.mp hb
    have hyx : y.Contains x.first := by
      rw [hxa,← hya]
      exact contains_first (h.live_within y hy).2.1
    exact (h.disjoint x hx y hy).not_contains (contains_first (h.within x hx).2.1) hyx
  · refine .inr ⟨Bool.eq_false_iff.mpr hb,?_⟩
    obtain ⟨x,hx | hx,hxp⟩ := h.cover (a.first+a.size) (by omega) hhi
    · refine ⟨x,hx,?_⟩
      obtain ⟨h1,h2⟩ := hxp
      obtain hd | hd := h.disjoint x hx a ha
      · omega
      · omega
    · refine absurd (hbit.mpr ⟨x,hx,?_⟩) hb
      obtain ⟨h1,h2⟩ := hxp
      have hxa : x≠a := by
        rintro rfl
        omega
      obtain hd | hd := h.live_disjoint x a hx ha hxa
      · omega
      · omega

/-- The end of an allocation is its last page. -/
theorem Layout.findEnd (ha : L a) {k fuel p : Nat} (hk : k≤fuel)
    (hp : a.first≤p) (hlast : p+k+1=a.first+a.size) :
    s.findEnd fuel p=a.first+a.size-1 := by
  obtain ⟨ha1,ha2,ha3⟩ := h.live_within a ha
  induction fuel generalizing k p with
  | zero =>
    rw [NonPagedPool.findEnd]
    omega
  | succ fuel ih =>
    have hbit := h.ends p (by omega) (by omega)
    rw [NonPagedPool.findEnd]
    by_cases hb : s.endOfAllocation p=true
    · rw [if_pos hb]
      obtain ⟨x,hx,hxp⟩ := hbit.mp hb
      obtain rfl : x=a := by
        by_contra hxa
        exact (h.live_disjoint x a hx ha hxa).not_contains
          (contains_last (h.live_within x hx).2.1 hxp) ⟨hp,by omega⟩
      omega
    · rw [if_neg hb]
      cases k with
      | zero => exact absurd (hbit.mpr ⟨a,ha,by omega⟩) hb
      | succ k => exact ih (k := k) (by omega) (by omega) (by omega)

end

end Layout

end Odyssey.Mm
