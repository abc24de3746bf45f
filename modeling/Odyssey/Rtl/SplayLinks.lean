import Odyssey.Lib.TreeZipper

/-! Splay trees of the run-time library. A link is a position of the tree: the node with the way up
that the parent links give. -/
namespace Odyssey.Rtl.SplayLinks
open TreeZipper BinTree
variable {α : Type*} {t : BinTree α} {up : Path α}

def rtlSplay (l : BinTree α) (n : α) (r : BinTree α) : Path α → BinTree α
  | [] => .node l n r
  | [.left p c] => .node l n (.node r p c)
  | [.right a p] => .node (.node a p l) n r
  | .left p c :: .left g d::up => rtlSplay l n (.node r p (.node c g d)) up
  | .right a p :: .right b g::up => rtlSplay (.node (.node b g a) p l) n r up
  | .left p c :: .right a g::up => rtlSplay (.node a g l) n (.node r p c) up
  | .right a p :: .left g d::up => rtlSplay (.node a p l) n (.node r g d) up

theorem toList_rtlSplay (l : BinTree α) (n : α) (r : BinTree α) (up : Path α) :
    (rtlSplay l n r up).toList=before up++l.toList++n::(r.toList++after up) := by
  fun_induction rtlSplay l n r up <;> simp_all [before,after]

def leftTurn : Path α → Option α
  | [] => none
  | .left a _::_ => some a
  | .right _ _::up => leftTurn up

theorem leftTurn_eq (up : Path α) : leftTurn up=(after up).head? := by
  induction up with
  | nil => rfl
  | cons c up ih => cases c <;> simp [leftTurn,after,ih]

def rtlRealSuccessor (n : Focus α) : Option α :=
  match n.right with
  | .nil => leftTurn n.path
  | .node l a r => (BinTree.node l a r).first

theorem rtlRealSuccessor_eq (n : Focus α) : rtlRealSuccessor n=n.back.head? := by
  rw [rtlRealSuccessor,Focus.back]
  split
  next hright => simp [hright,leftTurn_eq]
  next l a r hright => simp [hright,first_eq]

def rightmost : BinTree α → Path α → Option (Focus α)
  | .nil, _ => none
  | .node l a .nil, up => some ⟨l,a,.nil,up⟩
  | .node l a (.node rl b rr), up => rightmost (.node rl b rr) (.right l a::up)

theorem rightmost_eq_none : rightmost t up=none ↔ t = .nil := by
  fun_induction rightmost t up <;> simp_all

theorem rightmost_spec {n : Focus α} (h : rightmost t up=some n) :
    before n.path++(n.left.toList++[n.label])=before up++t.toList ∧
      after n.path=after up := by
  fun_induction rightmost t up with
  | case1 => simp at h
  | case2 l a up =>
    cases h
    simp
  | case3 l a rl b rr up ih =>
    have hn := ih h
    simp only [before,after] at hn
    exact ⟨by simpa using hn.1,hn.2⟩

def splayParent (t : BinTree α) : Path α → BinTree α
  | [] => t
  | .left a r::up => rtlSplay t a r up
  | .right l a::up => rtlSplay l a t up

theorem toList_splayParent (t : BinTree α) (up : Path α) :
    (splayParent t up).toList=before up++t.toList++after up := by
  cases up with
  | nil => simp [splayParent,before,after]
  | cons c up => cases c <;> simp [splayParent,toList_rtlSplay,before,after]

def rtlDelete (n : Focus α) : BinTree α :=
  match n.right, rightmost n.left [] with
  | .nil, _ => splayParent n.left n.path
  | .node rl b rr, none => splayParent (.node rl b rr) n.path
  | .node rl b rr, some sp =>
    splayParent sp.left (sp.path ++ .left sp.label (.node rl b rr)::n.path)

theorem toList_rtlDelete (n : Focus α) : (rtlDelete n).toList=n.front++n.back := by
  rw [rtlDelete,Focus.front,Focus.back]
  split
  next hright => simp [toList_splayParent,hright]
  next rl b rr hright hleft =>
    rw [rightmost_eq_none.mp hleft,hright,toList_splayParent]
    simp
  next rl b rr sp hright hsp =>
    obtain ⟨hbefore,hafter⟩ := rightmost_spec hsp
    simp only [before,after,List.nil_append] at hbefore hafter
    rw [toList_splayParent,before_append,after_append,hafter,hright,← hbefore]
    simp [before,after]

end Odyssey.Rtl.SplayLinks
