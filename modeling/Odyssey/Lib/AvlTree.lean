import Mathlib.Tactic

/-! Binary trees with a stored balance factor, their zippers, and the two
bottom-up repairs of an AVL tree: after a subtree grew by one level and after
one shrank. Labels are arbitrary; nothing here knows about memory. -/
namespace AvlTree
open List

inductive Side where
  | left | right
  deriving DecidableEq, Repr

def Side.flip : Side → Side
  | .left => .right
  | .right => .left

def Side.weight : Side → Int
  | .left => -1
  | .right => 1

@[simp] theorem Side.flip_flip (s : Side) : s.flip.flip=s := by cases s <;> rfl
@[simp] theorem Side.flip_ne (s : Side) : s.flip≠s := by cases s <;> decide
@[simp] theorem Side.ne_flip (s : Side) : s≠s.flip := by cases s <;> decide
@[simp] theorem Side.weight_ne_zero (s : Side) : s.weight≠0 := by cases s <;> decide

theorem Side.weight_cases (s : Side) : s.weight=1 ∨ s.weight = -1 := by cases s <;> simp [weight]

inductive BTree (α : Type*) where
  | nil
  | node (l : BTree α) (a : α) (b : Int) (r : BTree α)
  deriving DecidableEq, Repr

variable {α : Type*} {t : BTree α} {a : α} {x y : BTree α}

namespace BTree

def height : BTree α → Nat
  | nil => 0
  | node l _ _ r => max l.height r.height+1

def toList : BTree α → List α
  | nil => []
  | node l a _ r => l.toList++a::r.toList

/-- Every stored balance factor is the true height difference and is small. -/
def Balanced : BTree α → Prop
  | nil => True
  | node l _ b r => b=(r.height : Int)-l.height ∧ -1≤b ∧ b≤1 ∧ l.Balanced ∧ r.Balanced

end BTree

def join (s : Side) (a : α) (b : Int) (x y : BTree α) : BTree α :=
  match s with
  | .left => .node x a b y
  | .right => .node y a b x

theorem node_eq_join (l : BTree α) (a : α) (b : Int) (r : BTree α) (s : Side) :
    ∃ x y, BTree.node l a b r=join s a b x y := by
  cases s with
  | left => exact ⟨l,r,rfl⟩
  | right => exact ⟨r,l,rfl⟩

section
variable (s : Side) (a : α) (b : Int) (x y : BTree α)

theorem join_flip : join s.flip a b x y=join s a b y x := by
  cases s <;> rfl

@[simp] theorem height_join : (join s a b x y).height=max x.height y.height+1 := by
  cases s <;> simp [join,BTree.height,max_comm]

theorem balanced_join :
    (join s a b x y).Balanced ↔
      b=s.weight*((x.height : Int)-y.height) ∧ -1≤b ∧ b≤1 ∧ x.Balanced ∧ y.Balanced := by
  cases s with
  | left =>
    simp only [join,BTree.Balanced,Side.weight]
    constructor
    · rintro ⟨h,h1,h2,hx,hy⟩
      exact ⟨by omega,h1,h2,hx,hy⟩
    · rintro ⟨h,h1,h2,hx,hy⟩
      exact ⟨by omega,h1,h2,hx,hy⟩
  | right =>
    simp only [join,BTree.Balanced,Side.weight,one_mul]
    tauto

end

theorem balanced_weight (s : Side) {b : Int}
    (h : t.Balanced) (ht : t=join s a b x y) : b=0 ∨ b=s.weight ∨ b = -s.weight := by
  subst ht
  obtain ⟨-,h1,h2,-,-⟩ := (balanced_join s a b x y).mp h
  rcases s.weight_cases with hw | hw <;> omega

structure Crumb (α : Type*) where
  side : Side
  label : α
  balance : Int
  sibling : BTree α
  deriving DecidableEq, Repr

abbrev Path (α : Type*) := List (Crumb α)

def plug (t : BTree α) : Path α → BTree α
  | [] => t
  | c::p => plug (join c.side c.label c.balance t c.sibling) p

theorem nodup_split_unique {A B A' B' : List α} (h : A++a::B=A'++a::B')
    (hnd : (A++a::B).Nodup) : A=A' ∧ B=B' := by
  have hA : a∉A := fun hm => (nodup_append.mp hnd).2.2 a hm a (by simp) rfl
  have hB : a∉B := (nodup_cons.mp (nodup_append.mp hnd).2.1).1
  obtain ⟨h1,-,h2⟩ := (append_cons_inj_of_notMem hA hB).mp h
  exact ⟨h1,h2⟩

def Path.before : Path α → List α
  | [] => []
  | c::p => before p++(match c.side with
    | .left => []
    | .right => c.sibling.toList++[c.label])

def Path.after : Path α → List α
  | [] => []
  | c::p => (match c.side with
    | .left => c.label::c.sibling.toList
    | .right => [])++after p

theorem toList_plug (t : BTree α) (p : Path α) :
    (plug t p).toList=Path.before p++t.toList++Path.after p := by
  induction p generalizing t with
  | nil => simp [plug,Path.before,Path.after]
  | cons c p ih =>
    rw [plug,ih]
    cases h : c.side <;> simp [Path.before,Path.after,h,join,BTree.toList]

def Path.labels : Path α → List α
  | [] => []
  | c::p => c.label::(c.sibling.toList++labels p)

theorem toList_join_perm (s : Side) (a : α) (b : Int) (x y : BTree α) :
    (join s a b x y).toList.Perm (a::(x.toList++y.toList)) := by
  cases s with
  | left => exact perm_middle
  | right =>
    exact perm_middle.trans ((perm_append_comm).cons a)

@[simp] theorem mem_join {z : α} {s : Side} {b : Int} :
    z∈(join s a b x y).toList ↔ z=a ∨ z∈x.toList ∨ z∈y.toList := by
  rw [(toList_join_perm s a b x y).mem_iff]
  simp

theorem toList_plug_perm (t : BTree α) (p : Path α) :
    (plug t p).toList.Perm (t.toList++Path.labels p) := by
  induction p generalizing t with
  | nil => simp [plug,Path.labels]
  | cons c p ih =>
    refine (ih _).trans (((toList_join_perm ..).append_right _).trans ?_)
    simpa [Path.labels] using
      (@perm_middle _ c.label t.toList (c.sibling.toList++Path.labels p)).symm

theorem plug_append (t : BTree α) (p q : Path α) : plug t (p++q)=plug (plug t p) q := by
  induction p generalizing t with
  | nil => rfl
  | cons c p ih => simpa [plug] using ih _

variable {u : BTree α}

theorem height_plug_congr (h : t.height=u.height) (p : Path α) :
    (plug t p).height=(plug u p).height := by
  induction p generalizing t u with
  | nil => exact h
  | cons c p ih => exact ih (by simp [h])

variable {p : Path α}

theorem balanced_of_plug (h : (plug t p).Balanced) : t.Balanced := by
  induction p generalizing t with
  | nil => exact h
  | cons c p ih => exact ((balanced_join ..).mp (ih h)).2.2.2.1

/-- Replacing a subtree by a balanced one of the same height keeps the balance. -/
theorem balanced_plug_congr (hh : t.height=u.height) (hu : u.Balanced) (h : (plug t p).Balanced) :
    (plug u p).Balanced := by
  induction p generalizing t u with
  | nil => exact hu
  | cons c p ih =>
    have hj := (balanced_join ..).mp (balanced_of_plug h)
    refine ih (by simp [hh]) ?_ h
    exact (balanced_join ..).mpr ⟨by rw [← hh]; exact hj.1,hj.2.1,hj.2.2.1,hu,hj.2.2.2.2⟩

/-- Every label of a tree is the root of some focus. -/
theorem exists_focus (h : a∈t.toList) : ∃ l b r p, t=plug (.node l a b r) p := by
  suffices hs : ∀ q : Path α, ∃ l b r p, plug t q=plug (.node l a b r) p by exact hs []
  induction t with
  | nil => simp [BTree.toList] at h
  | node l x b r ihl ihr =>
    intro q
    simp only [BTree.toList,mem_append,mem_cons] at h
    rcases h with h | rfl | h
    · exact ihl h (⟨.left,x,b,r⟩::q)
    · exact ⟨l,b,r,q,rfl⟩
    · exact ihr h (⟨.right,x,b,l⟩::q)

theorem length_path_le (t : BTree α) (p : Path α) : p.length≤(plug t p).toList.length := by
  induction p generalizing t with
  | nil => simp
  | cons c p ih =>
    have hj : 1≤(join c.side c.label c.balance t c.sibling).toList.length := by
      cases c.side <;> simp [join,BTree.toList] <;> omega
    have hl : ∀ u : BTree α, u.toList.length+p.length≤(plug u p).toList.length := by
      clear ih hj
      induction p with
      | nil => intro u; simp [plug]
      | cons d p ih =>
        intro u
        refine le_trans ?_ (ih _)
        cases d.side <;> simp [join,BTree.toList] <;> omega
    have := hl (join c.side c.label c.balance t c.sibling)
    simp only [length_cons,plug]
    omega

def child (s : Side) : BTree α → BTree α
  | .nil => .nil
  | .node l _ _ r => match s with
    | .left => l
    | .right => r

def doubleWeights (s : Side) (bd : Int) : Int × Int :=
  if bd=s.weight then (0, -s.weight)
  else if bd = -s.weight then (s.weight, 0)
  else (0, 0)

def rebalance (s : Side) (a : α) (heavy other : BTree α) : BTree α × Bool :=
  match heavy with
  | .nil => (join s a s.weight .nil other, true)
  | .node l c bc r =>
    let x := child s (.node l c bc r)
    let y := child s.flip (.node l c bc r)
    if bc=s.weight then (join s c 0 x (join s a 0 y other), false)
    else if bc = -s.weight then
      match y with
      | .nil => (join s a s.weight (.node l c bc r) other, true)
      | .node l' d bd r' =>
        (join s d 0 (join s c (doubleWeights s bd).1 x (child s (.node l' d bd r')))
          (join s a (doubleWeights s bd).2 (child s.flip (.node l' d bd r')) other), false)
    else (join s c (-s.weight) x (join s a s.weight y other), true)

theorem rebalance_single (s : Side) (a c : α) (x y o : BTree α) :
    rebalance s a (join s c s.weight x y) o=(join s c 0 x (join s a 0 y o), false) := by
  cases s <;> simp [rebalance,join,child,Side.flip,Side.weight]

theorem rebalance_double (s : Side) (a c d : α) (bd : Int) (x y₁ y₂ o : BTree α) :
    rebalance s a (join s c (-s.weight) x (join s d bd y₁ y₂)) o =
      (join s d 0 (join s c (doubleWeights s bd).1 x y₁)
        (join s a (doubleWeights s bd).2 y₂ o), false) := by
  cases s <;> simp [rebalance,join,child,Side.flip,Side.weight]

theorem rebalance_even (s : Side) (a c : α) (x y o : BTree α) :
    rebalance s a (join s c 0 x y) o =
      (join s c (-s.weight) x (join s a s.weight y o), true) := by
  cases s <;> simp [rebalance,join,child,Side.flip,Side.weight]

variable {h o : BTree α}

/-- A balanced subtree two levels above its sibling has one of three shapes. -/
theorem heavy_cases (s : Side) (hb : h.Balanced) (hh : h.height=o.height+2) :
    ∃ c x y, h=join s c s.weight x y ∨ h=join s c 0 x y ∨
      ∃ d bd y₁ y₂, y=join s d bd y₁ y₂ ∧ h=join s c (-s.weight) x y := by
  cases h with
  | nil => simp [BTree.height] at hh
  | node l c b r =>
    obtain ⟨x,y,hxy⟩ := node_eq_join l c b r s
    rw [hxy] at hb hh ⊢
    rcases balanced_weight s hb rfl with hw | hw | hw
    · exact ⟨c,x,y,.inr (.inl (by rw [hw]))⟩
    · exact ⟨c,x,y,.inl (by rw [hw])⟩
    · have hj := (balanced_join ..).mp hb
      refine ⟨c,x,y,.inr (.inr ?_)⟩
      cases y with
      | nil =>
        have h1 := hj.1
        simp only [height_join,BTree.height] at hh h1
        rcases s.weight_cases with hs | hs <;> rw [hs] at h1 hw <;> omega
      | node l' d bd r' =>
        obtain ⟨y₁,y₂,hy⟩ := node_eq_join l' d bd r' s
        exact ⟨d,bd,y₁,y₂,hy,by rw [hw]⟩

theorem toList_rotate (s : Side) (a c : α) (ba bc ba' bc' : Int) (x y o : BTree α) :
    (join s c bc' x (join s a ba' y o)).toList=(join s a ba (join s c bc x y) o).toList := by
  cases s <;> simp [join,BTree.toList]

theorem rebalance_toList (s : Side) (a : α) (b : Int) (hb : h.Balanced) (hh : h.height=o.height+2) :
    (rebalance s a h o).1.toList=(join s a b h o).toList := by
  obtain ⟨c,x,y,rfl | rfl | ⟨d,bd,y₁,y₂,rfl,rfl⟩⟩ := heavy_cases s hb hh
  · rw [rebalance_single]
    exact toList_rotate ..
  · rw [rebalance_even]
    exact toList_rotate ..
  · rw [rebalance_double]
    cases s <;> simp [join,BTree.toList]

theorem rebalance_balanced (s : Side) (a : α) (hb : h.Balanced) (ho : o.Balanced)
    (hh : h.height=o.height+2) :
    (rebalance s a h o).1.Balanced ∧
      (rebalance s a h o).1.height=h.height+(if (rebalance s a h o).2 then 1 else 0) := by
  obtain ⟨c,x,y,rfl | rfl | ⟨d,bd,y₁,y₂,rfl,rfl⟩⟩ := heavy_cases s hb hh
  · obtain ⟨h1,-,-,hx,hy⟩ := (balanced_join ..).mp hb
    rw [rebalance_single]
    simp only [balanced_join,height_join] at hh ⊢
    rcases s.weight_cases with hs | hs <;> rw [hs] at h1 ⊢ <;>
      exact ⟨⟨by omega,by omega,by omega,hx,by omega,by omega,by omega,hy,ho⟩,by simp; omega⟩
  · obtain ⟨h1,-,-,hx,hy⟩ := (balanced_join ..).mp hb
    rw [rebalance_even]
    simp only [balanced_join,height_join] at hh ⊢
    rcases s.weight_cases with hs | hs <;> rw [hs] at h1 ⊢ <;>
      exact ⟨⟨by omega,by omega,by omega,hx,by omega,by omega,by omega,hy,ho⟩,by simp; omega⟩
  · obtain ⟨h1,-,-,hx,hy⟩ := (balanced_join ..).mp hb
    obtain ⟨h2,h3,h4,hy₁,hy₂⟩ := (balanced_join ..).mp hy
    rw [rebalance_double]
    simp only [balanced_join,height_join,doubleWeights] at hh h1 ⊢
    rcases s.weight_cases with hs | hs <;> rw [hs] at h1 h2 ⊢ <;>
      rcases (show bd = -1 ∨ bd=0 ∨ bd=1 by omega) with rfl | rfl | rfl <;>
      norm_num <;>
      exact ⟨⟨by omega,⟨by omega,hx,hy₁⟩,by omega,hy₂,ho⟩,by omega⟩

def growFix (t : BTree α) : Path α → BTree α × Bool
  | [] => (t, true)
  | c::p =>
    if c.balance=0 then growFix (join c.side c.label c.side.weight t c.sibling) p
    else if c.balance≠c.side.weight then (plug (join c.side c.label 0 t c.sibling) p, false)
    else (plug (rebalance c.side c.label t c.sibling).1 p, false)

def shrinkFix (t : BTree α) : Path α → BTree α × Bool
  | [] => (t, true)
  | c::p =>
    if c.balance=c.side.weight then shrinkFix (join c.side c.label 0 t c.sibling) p
    else if c.balance=0 then
      (plug (join c.side c.label (-c.side.weight) t c.sibling) p, false)
    else if (rebalance c.side.flip c.label c.sibling t).2 then
      (plug (rebalance c.side.flip c.label c.sibling t).1 p, false)
    else shrinkFix (rebalance c.side.flip c.label c.sibling t).1 p

variable {c : Crumb α}

theorem growFix_climb (h : c.balance=0) (t : BTree α) (p : Path α) :
    growFix t (c::p)=growFix (join c.side c.label c.side.weight t c.sibling) p := by
  rw [growFix,if_pos h]

theorem growFix_level (h : c.balance≠0) (h' : c.balance≠c.side.weight) (t : BTree α) (p : Path α) :
    growFix t (c::p)=(plug (join c.side c.label 0 t c.sibling) p, false) := by
  rw [growFix,if_neg h,if_pos h']

theorem growFix_rotate (h : c.balance=c.side.weight) (t : BTree α) (p : Path α) :
    growFix t (c::p)=(plug (rebalance c.side c.label t c.sibling).1 p, false) := by
  rw [growFix,if_neg (by simp [h]),if_neg (not_not.mpr h)]

theorem shrinkFix_climb (h : c.balance=c.side.weight) (t : BTree α) (p : Path α) :
    shrinkFix t (c::p)=shrinkFix (join c.side c.label 0 t c.sibling) p := by
  rw [shrinkFix,if_pos h]

theorem shrinkFix_lean (h : c.balance=0) (t : BTree α) (p : Path α) :
    shrinkFix t (c::p) =
      (plug (join c.side c.label (-c.side.weight) t c.sibling) p, false) := by
  rw [shrinkFix,if_neg (by simp [h,c.side.weight_ne_zero.symm]),if_pos h]

theorem shrinkFix_rotate (h : c.balance≠c.side.weight) (h' : c.balance≠0)
    (t : BTree α) (p : Path α) :
    shrinkFix t (c::p) =
      if (rebalance c.side.flip c.label c.sibling t).2 then
        (plug (rebalance c.side.flip c.label c.sibling t).1 p, false)
      else shrinkFix (rebalance c.side.flip c.label c.sibling t).1 p := by
  rw [shrinkFix,if_neg h,if_neg h']

def rootBalance : BTree α → Int
  | .nil => 0
  | .node _ _ b _ => b

@[simp] theorem rootBalance_join (s : Side) (a : α) (b : Int) (x y : BTree α) :
    rootBalance (join s a b x y)=b := by
  cases s <;> rfl

def Skewed (t : BTree α) : Prop := t.height=1 ∨ rootBalance t≠0

theorem rebalance_skewed (s : Side) (a : α) (hb : h.Balanced)
    (hh : h.height=o.height+2) (hs : Skewed h) : (rebalance s a h o).2=false := by
  have hr : rootBalance h≠0 := hs.resolve_left (by omega)
  obtain ⟨c,x,y,rfl | rfl | ⟨d,bd,y₁,y₂,rfl,rfl⟩⟩ := heavy_cases s hb hh
  · rw [rebalance_single]
  · simp at hr
  · rw [rebalance_double]

/-- Joins on one side differ in their lists only where the subtrees do. -/
theorem toList_plug_congr (h : t.toList=u.toList) (p : Path α) :
    (plug t p).toList=(plug u p).toList := by
  rw [toList_plug,toList_plug,h]

theorem toList_join (s : Side) (a : α) (b b' : Int) (x y : BTree α) :
    (join s a b x y).toList=(join s a b' x y).toList := by
  cases s <;> rfl

/-- `u` is the focus as it was before it grew. -/
theorem growFix_spec (hp : (plug u p).Balanced)
    (ht : t.Balanced) (hh : t.height=u.height+1) (hs : Skewed t) :
    (growFix t p).1.Balanced ∧ (growFix t p).1.toList=(plug t p).toList ∧
      (growFix t p).1.height=(plug u p).height+(if (growFix t p).2 then 1 else 0) := by
  induction p generalizing t u with
  | nil => exact ⟨ht,rfl,by simpa [growFix,plug] using hh⟩
  | cons c p ih =>
    obtain ⟨hb,h1,h2,hu,ho⟩ := (balanced_join ..).mp (balanced_of_plug hp)
    rw [plug,plug]
    by_cases h0 : c.balance=0
    · rw [growFix_climb h0]
      have hbal : c.balance=c.side.weight*((u.height : Int)-c.sibling.height) := hb
      have heq : u.height=c.sibling.height := by
        rcases c.side.weight_cases with hw | hw <;> rw [hw] at hbal <;> omega
      have hj : (join c.side c.label c.side.weight t c.sibling).Balanced := by
        rw [balanced_join]
        rcases c.side.weight_cases with hw | hw <;> rw [hw] <;>
          exact ⟨by omega,by omega,by omega,ht,ho⟩
      obtain ⟨ha,hl,hg⟩ := ih hp hj
        (by simp [heq,hh]) (.inr (by simp))
      exact ⟨ha,hl.trans (toList_plug_congr (toList_join ..) p),hg⟩
    by_cases h0' : c.balance≠c.side.weight
    · rw [growFix_level h0 h0']
      have hj : (join c.side c.label 0 t c.sibling).Balanced := by
        rw [balanced_join]
        rcases c.side.weight_cases with hw | hw <;> rw [hw] at hb h0' ⊢ <;>
          exact ⟨by omega,by omega,by omega,ht,ho⟩
      have hheight : (join c.side c.label c.balance u c.sibling).height =
          (join c.side c.label 0 t c.sibling).height := by
        have := (balanced_join ..).mp hj
        simp only [height_join]
        rcases c.side.weight_cases with hw | hw <;> rw [hw] at this <;> omega
      exact ⟨balanced_plug_congr hheight hj hp,toList_plug_congr (toList_join ..) p,
        by simpa using height_plug_congr hheight.symm p⟩
    · have heq : c.balance=c.side.weight := not_not.mp h0'
      rw [growFix_rotate heq]
      have htall : t.height=c.sibling.height+2 := by
        rcases c.side.weight_cases with hw | hw <;> rw [hw] at hb heq <;> omega
      obtain ⟨hj,hg⟩ := rebalance_balanced c.side c.label ht ho htall
      rw [rebalance_skewed c.side c.label ht htall hs] at hg
      have hheight : (join c.side c.label c.balance u c.sibling).height =
          (rebalance c.side c.label t c.sibling).1.height := by
        rw [hg]
        simp
        omega
      exact ⟨balanced_plug_congr hheight hj hp,
        toList_plug_congr (rebalance_toList c.side c.label c.balance ht htall) p,
        by simpa using height_plug_congr hheight.symm p⟩

/-- `u` is the focus as it was before it lost a level. -/
theorem shrinkFix_spec (hp : (plug u p).Balanced) (ht : t.Balanced) (hh : u.height=t.height+1) :
    (shrinkFix t p).1.Balanced ∧ (shrinkFix t p).1.toList=(plug t p).toList ∧
      (plug u p).height=(shrinkFix t p).1.height+(if (shrinkFix t p).2 then 1 else 0) := by
  induction p generalizing t u with
  | nil => exact ⟨ht,rfl,by simpa [shrinkFix,plug] using hh⟩
  | cons c p ih =>
    obtain ⟨hb,h1,h2,hu,ho⟩ := (balanced_join ..).mp (balanced_of_plug hp)
    rw [plug,plug]
    by_cases h0 : c.balance=c.side.weight
    · rw [shrinkFix_climb h0]
      have hj : (join c.side c.label 0 t c.sibling).Balanced := by
        rw [balanced_join]
        rcases c.side.weight_cases with hw | hw <;> rw [hw] at hb h0 ⊢ <;>
          exact ⟨by omega,by omega,by omega,ht,ho⟩
      have hheight : (join c.side c.label c.balance u c.sibling).height =
          (join c.side c.label 0 t c.sibling).height+1 := by
        have := (balanced_join ..).mp hj
        simp only [height_join]
        rcases c.side.weight_cases with hw | hw <;> rw [hw] at this <;> omega
      obtain ⟨ha,hl,hg⟩ := ih hp hj hheight
      exact ⟨ha,hl.trans (toList_plug_congr (toList_join ..) p),hg⟩
    by_cases h0' : c.balance=0
    · rw [shrinkFix_lean h0']
      have hj : (join c.side c.label (-c.side.weight) t c.sibling).Balanced := by
        rw [balanced_join]
        rcases c.side.weight_cases with hw | hw <;> rw [hw] at hb ⊢ <;>
          exact ⟨by omega,by omega,by omega,ht,ho⟩
      have hheight : (join c.side c.label c.balance u c.sibling).height =
          (join c.side c.label (-c.side.weight) t c.sibling).height := by
        simp only [height_join]
        rcases c.side.weight_cases with hw | hw <;> rw [hw] at hb <;> omega
      exact ⟨balanced_plug_congr hheight hj hp,toList_plug_congr (toList_join ..) p,
        by simpa using height_plug_congr hheight p⟩
    have htall : c.sibling.height=t.height+2 := by
      rcases c.side.weight_cases with hw | hw <;> rw [hw] at hb h0 <;> omega
    obtain ⟨hj,hg⟩ := rebalance_balanced c.side.flip c.label ho ht htall
    have hlist := rebalance_toList c.side.flip c.label c.balance ho htall
    rw [join_flip] at hlist
    rw [shrinkFix_rotate h0 h0']
    cases hr : (rebalance c.side.flip c.label c.sibling t).2 with
    | true =>
      rw [hr] at hg
      have hheight : (join c.side c.label c.balance u c.sibling).height =
          (rebalance c.side.flip c.label c.sibling t).1.height := by
        rw [hg]
        simp
        omega
      exact ⟨balanced_plug_congr hheight hj hp,toList_plug_congr hlist p,
        by simpa using height_plug_congr hheight p⟩
    | false =>
      rw [hr] at hg
      have hheight : (join c.side c.label c.balance u c.sibling).height =
          (rebalance c.side.flip c.label c.sibling t).1.height+1 := by
        rw [hg]
        simp
        omega
      obtain ⟨ha,hl,hgt⟩ := ih hp hj hheight
      exact ⟨ha,hl.trans (toList_plug_congr hlist p),hgt⟩

end AvlTree
